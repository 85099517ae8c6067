import Chomsky.Proofs.Grammar.CycleSearch
import Chomsky.Proofs.Grammar.UnitFree
import Mathlib.Data.Finset.Card

/-! # Unit productions are eliminated unless they form a cycle

Without a cycle every unit step leads to a nonterminal of smaller rank, and each round of
replacements leaves steps of sources of a higher rank only (`Falls.replaceUnits`). So the rounds end
within their bound, and elimination fails exactly if there is a cycle
(`exists_eliminateUnits_eq_error_iff`).
-/

namespace Chomsky

open Relation (ReflTransGen TransGen)

/-- Without cycles the steps among finitely many sources go down. -/
theorem exists_rank {α : Type u} {r : α → α → Prop} {sources : List α}
    (hsources : ∀ {a b}, r a b → a ∈ sources) (hacyclic : ∀ a, ¬TransGen r a a) :
    ∃ rank : α → Nat, (∀ {a b}, r a b → rank b < rank a) ∧ (∀ a ∈ sources, 0 < rank a) ∧
      ∀ a, rank a ≤ sources.length := by
  classical
  let ahead (a : α) : Finset α := sources.toFinset.filter (ReflTransGen r a)
  have hmem : ∀ {a b}, b ∈ ahead a ↔ b ∈ sources ∧ ReflTransGen r a b := by
    simp [ahead]
  refine ⟨fun a => (ahead a).card, fun {a b} hab => ?_, fun a ha => ?_, fun a => ?_⟩
  · refine Finset.card_lt_card (Finset.ssubset_iff_subset_ne.2 ⟨fun c hc => ?_, fun heq => ?_⟩)
    · obtain ⟨hc, hbc⟩ := hmem.1 hc
      exact hmem.2 ⟨hc, .head hab hbc⟩
    · have ha : a ∈ ahead b := heq ▸ hmem.2 ⟨hsources hab, .refl⟩
      exact hacyclic a (.head' hab (hmem.1 ha).2)
  · exact Finset.card_pos.2 ⟨a, hmem.2 ⟨ha, .refl⟩⟩
  · exact (Finset.card_filter_le _ _).trans (List.toFinset_card_le _)

namespace Grammar

variable {g : Grammar} {ps : Productions} {a b : SymbolId} {cycle : List SymbolId}
  {rank : SymbolId → Nat} {fuel k n : Nat} {e : LanguageError}

theorem mem_unitTargets_iff : b ∈ g.unitTargets a ↔ g.UnitStep g.productions a b ∧ b ≠ a := by
  simp only [unitTargets, List.mem_filter, List.mem_filterMap, bne_iff_ne, unitStep_iff,
    alternatives]

/-- The cycle that is found is one of unit productions. -/
theorem isCycle_of_unitCycle? (h : g.unitCycle? = some cycle) : IsCycle g.unitTargets cycle := by
  unfold unitCycle? at h
  dsimp only at h
  split at h
  · next hsearch =>
    obtain rfl := Option.some.inj h
    obtain ⟨root, -, done, hroot⟩ := exists_of_foldlM_eq_error hsearch
    split at hroot
    · cases hroot
    · exact isCycle_of_searchCycle (.singleton root) (List.nodup_singleton root) hroot
  · cases h

theorem Consistent.not_transGen_of_unitCycle? (hg : g.Consistent) (h : g.unitCycle? = none) :
    ¬TransGen (fun x y => y ∈ g.unitTargets x) a a := by
  have hkey : ∀ {a b}, b ∈ g.unitTargets a → a ∈ g.productions.keys := fun hb =>
    Productions.mem_keys_of_mem_alternatives (mem_unitTargets_iff.1 hb).1.1
  have hall : ∀ x ∈ List.range g.symbols.size, ∀ y ∈ g.unitTargets x,
      y ∈ List.range g.symbols.size := fun x _ y hy =>
    List.mem_range.2 (hg.productions_over.symbol_lt (mem_unitTargets_iff.1 hy).1.1 y
      List.mem_cons_self)
  unfold unitCycle? at h
  dsimp only at h
  split at h
  · cases h
  · next done hsearch =>
    have hvisits : Visits g.unitTargets g.productions.keys [] done := by
      refine visits_foldlM (fun {done root done'} hroot hdone hvisit => ?_) .nil hsearch
      split at hvisit
      · next hmem =>
        cases hvisit
        exact ⟨hdone, List.Subset.refl _, List.forall_mem_singleton.2 hmem⟩
      · refine visits_searchCycle hall (List.nodup_singleton root)
          (List.forall_mem_singleton.2 (List.mem_range.2 (hg.key_lt hroot))) ?_ hdone hvisit
        rw [List.length_range]
        exact Nat.lt_succ_self _
    intro hcycle
    obtain ⟨b, hb, -⟩ := TransGen.head'_iff.1 hcycle
    exact hvisits.settled.not_transGen (hvisits.mem a (hkey hb)) hcycle

/-- The unit steps go down, and their sources have a rank above `k`. -/
structure Falls (g : Grammar) (ps : Productions) (rank : SymbolId → Nat) (k : Nat) : Prop where
  lt_rank : ∀ {a b}, g.UnitStep ps a b → k < rank a
  rank_lt : ∀ {a b}, g.UnitStep ps a b → b ≠ a → rank b < rank a

/-- A unit step after a round stands for two unit steps. -/
theorem exists_of_unitStep_replaceUnits (h : g.UnitStep (g.replaceUnits ps) a b) :
    ∃ c, c ≠ a ∧ g.UnitStep ps a c ∧ g.UnitStep ps c b := by
  obtain ⟨hmem, hb⟩ := h
  rcases mem_replaceUnits_iff.1 hmem with ⟨-, hunit⟩ | ⟨c, hac, hca, hcb, -⟩
  · exact absurd ⟨b, rfl, hb⟩ (unitTarget?_eq_none_iff.1 hunit)
  · exact ⟨c, hca, hac, hcb, hb⟩

theorem Falls.replaceUnits (h : Falls g ps rank k) : Falls g (g.replaceUnits ps) rank (k + 1) where
  lt_rank hstep := by
    obtain ⟨c, hca, hac, hcb⟩ := exists_of_unitStep_replaceUnits hstep
    have hc := h.lt_rank hcb
    have ha := h.rank_lt hac hca
    omega
  rank_lt {a b} hstep _ := by
    obtain ⟨c, hca, hac, hcb⟩ := exists_of_unitStep_replaceUnits hstep
    have ha := h.rank_lt hac hca
    by_cases hbc : b = c
    · exact hbc ▸ ha
    · exact (h.rank_lt hcb hbc).trans ha

/-- The rounds end before the ranks are exhausted. -/
theorem Falls.exists_replaceUnitsWithin (h : Falls g ps rank k) (hrank : ∀ a, rank a ≤ n)
    (hfuel : n ≤ k + fuel) : ∃ ps', g.replaceUnitsWithin (fuel + 1) ps = .ok ps' := by
  induction fuel generalizing ps k with
  | zero =>
    refine ⟨_, if_neg fun hunit => ?_⟩
    obtain ⟨a, b, hstep⟩ := any_hasUnit_iff.1 hunit
    have hlt := h.lt_rank hstep
    have hle := hrank a
    omega
  | succ fuel ih =>
    rw [replaceUnitsWithin]
    split
    · exact ih h.replaceUnits (by omega)
    · exact ⟨_, rfl⟩

theorem exists_replaceUnitsWithin_of_acyclic
    (h : ∀ a, ¬TransGen (fun x y => y ∈ g.unitTargets x) a a) :
    ∃ ps, g.replaceUnitsWithin (g.productions.size * g.productions.size + 1) g.productions =
      .ok ps := by
  have hkey : ∀ {a b}, g.UnitStep g.productions a b → a ∈ g.productions.keys := fun hstep =>
    Productions.mem_keys_of_mem_alternatives hstep.1
  have hsource : ∀ {a b}, b ∈ g.unitTargets a → a ∈ g.productions.keys := fun hb =>
    hkey (mem_unitTargets_iff.1 hb).1
  obtain ⟨rank, hfall, hpos, hle⟩ := exists_rank hsource h
  have hfalls : Falls g g.productions rank 0 :=
    ⟨fun hstep => hpos _ (hkey hstep), fun hstep hne => hfall (mem_unitTargets_iff.2 ⟨hstep, hne⟩)⟩
  refine hfalls.exists_replaceUnitsWithin hle ?_
  rw [OrderedMap.keys, List.length_map, OrderedMap.length_entries, Nat.zero_add]
  exact Nat.le_mul_self _

/-- What fails is the search for cycles: the error names one. -/
theorem Consistent.eliminateUnits_eq_error (hg : g.Consistent) (h : g.eliminateUnits = .error e) :
    ∃ cycle, IsCycle g.unitTargets cycle ∧ e = .unitCycle (cycle.map g.name) := by
  unfold Grammar.eliminateUnits at h
  split at h
  · next cycle hcycle => exact ⟨cycle, isCycle_of_unitCycle? hcycle, (Except.error.inj h).symm⟩
  · next hnone =>
    obtain ⟨ps, hps⟩ := exists_replaceUnitsWithin_of_acyclic
      fun a => hg.not_transGen_of_unitCycle? hnone
    rw [hps] at h
    cases h

theorem Consistent.exists_eliminateUnits_eq_error_iff (hg : g.Consistent) :
    (∃ e, g.eliminateUnits = .error e) ↔
      ∃ a, TransGen (fun x y => y ∈ g.unitTargets x) a a := by
  constructor
  · rintro ⟨e, h⟩
    obtain ⟨cycle, hcycle, -⟩ := hg.eliminateUnits_eq_error h
    exact hcycle.exists_transGen
  · rintro ⟨a, hcycle⟩
    cases hfound : g.unitCycle? with
    | none => exact absurd hcycle (hg.not_transGen_of_unitCycle? hfound)
    | some cycle =>
      refine ⟨.unitCycle (cycle.map g.name), ?_⟩
      rw [Grammar.eliminateUnits, hfound]

theorem exists_transGen_unitTargets_iff : (∃ a, TransGen (fun x y => y ∈ g.unitTargets x) a a) ↔
    ∃ a b, a ≠ b ∧ ReflTransGen (g.UnitStep g.productions) a b ∧
      ReflTransGen (g.UnitStep g.productions) b a := by
  have hstep : ∀ {x y}, y ∈ g.unitTargets x → g.UnitStep g.productions x y := fun hy =>
    (mem_unitTargets_iff.1 hy).1
  have hproper : ∀ {x y}, ReflTransGen (g.UnitStep g.productions) x y →
      ReflTransGen (fun x y => y ∈ g.unitTargets x) x y := by
    refine fun h => Relation.reflTransGen_closed (fun x y hxy => ?_) _ _ h
    by_cases hyx : y = x
    · exact hyx ▸ .refl
    · exact .single (mem_unitTargets_iff.2 ⟨hxy, hyx⟩)
  constructor
  · rintro ⟨a, hcycle⟩
    obtain ⟨b, hb, hback⟩ := TransGen.head'_iff.1 hcycle
    exact ⟨a, b, (mem_unitTargets_iff.1 hb).2.symm, .single (hstep hb),
      ReflTransGen.mono (fun _ _ => hstep) _ _ hback⟩
  · rintro ⟨a, b, hne, hab, hba⟩
    have hab := (Relation.reflTransGen_iff_eq_or_transGen.1 (hproper hab)).resolve_left hne.symm
    exact ⟨a, hab.trans_left (hproper hba)⟩

end Grammar
end Chomsky
