import Chomsky.Proofs.Automaton.Quotient

/-! # Minimizing least automata

In a reduced automaton a state is the only member of its block, except that the block of the start
state may hold the sink. The blocks are sorted by their least members, which are therefore the
states in order (`map_least_keptBlocks`), so that minimization changes nothing
(`Reduced.merged_eq_self`).
-/

namespace Chomsky.Automaton

variable {a m : Automaton} {b : StateSet} {i : SymbolIndex} {k p q r : StateId}

theorem ascending_keptBlocks (h : a.WellFormed) :
    (a.keptBlocks.map fun b => b.least?.getD 0).Pairwise (· < ·) := by
  have hsorted : a.keptBlocks.Pairwise fun b c => b.least?.getD 0 ≤ c.least?.getD 0 :=
    (List.pairwise_mergeSort' (Order.Preimage (fun b : StateSet => b.least?.getD 0) (· ≤ ·))
      a.refinedBlocks).filter _
  have hleast : ∀ b ∈ a.keptBlocks, b.least?.getD 0 ∈ b := fun b hb =>
    least_mem ((exists_properMember h hb).imp fun q hq => (mem_properMembers_iff.1 hq).1)
  refine List.pairwise_map.2 ((hsorted.and (disjoint_keptBlocks h)).imp_of_mem ?_)
  intro b c hb hc hbc
  exact lt_of_le_of_ne hbc.1 fun heq => hbc.2 _ (hleast b hb) (heq ▸ hleast c hc)

namespace Reduced

variable (h : m.Reduced)
include h

theorem reachable_state (hk : k < m.states.size) : m.Reachable k := by
  obtain ⟨w, hw⟩ := h.reachable k hk
  exact ⟨w, (run_start_iff h.deterministic).2 hw⟩

theorem live_of_acceptsAfter {w : List String} (hw : m.acceptsAfter k w = true) : m.Live k :=
  live_iff_acceptsFrom.2 ⟨w, (acceptsFrom_singleton h.deterministic).trans hw⟩

theorem retained (hk : k < m.states.size) : m.Retained k := by
  refine ⟨h.reachable_state hk, ?_⟩
  obtain ⟨w, hw⟩ := h.reachable k hk
  cases w using List.reverseRecOn with
  | nil => exact Or.inr (Option.some.inj hw).symm
  | append_singleton w x =>
    obtain ⟨v, hv⟩ := h.live hw
    exact Or.inl (h.live_of_acceptsAfter hv)

theorem live_of_mem_targets (hr : r ∈ m.targets q i) : m.Live r := by
  have hq := h.wellFormed.source_lt_of_mem_targets hr
  obtain ⟨x, hx⟩ := run_singleton_of_mem_targets (h.wellFormed.symbol_lt_of_mem_targets hr) hr
  obtain ⟨w, hw⟩ := h.reachable_state hq
  obtain ⟨v, hv⟩ := h.live ((run_start_iff h.deterministic).1 (hw.append hx))
  exact h.live_of_acceptsAfter hv

theorem eq_of_mem_properMembers (hb : b ∈ m.keptBlocks) (hp : p ∈ m.properMembers b)
    (hq : q ∈ m.properMembers b) : p = q := by
  have hwf := h.wellFormed
  refine h.separated p (lt_of_mem_properMembers hwf hb hp) q (lt_of_mem_properMembers hwf hb hq) ?_
  obtain ⟨hpb, hpne⟩ := mem_properMembers_iff.1 hp
  obtain ⟨hqb, hqne⟩ := mem_properMembers_iff.1 hq
  funext w
  rw [acceptsAfter_eq_acceptsLater hpne, acceptsAfter_eq_acceptsLater hqne]
  exact ((mem_keptBlock_iff hwf hb hpb).1 hqb).2 w

theorem properMembers_eq (hb : b ∈ m.keptBlocks) (hk : k ∈ m.properMembers b) :
    m.properMembers b = [k] := by
  refine StateSet.toList_injective (b.ascending.filter _) (List.pairwise_singleton _ _) fun q => ?_
  rw [List.mem_singleton]
  constructor
  · exact fun hq => h.eq_of_mem_properMembers hb hq hk
  · rintro rfl
    exact hk

/-- The least member of a block is its only state, since the sink comes after all states. -/
theorem least_eq (hb : b ∈ m.keptBlocks) (hk : k ∈ m.properMembers b) : b.least?.getD 0 = k := by
  have hkb := (mem_properMembers_iff.1 hk).1
  have hle := least_le hkb
  have hlt := lt_of_mem_properMembers h.wellFormed hb hk
  have hleast : b.least?.getD 0 ∈ m.properMembers b :=
    mem_properMembers_iff.2 ⟨least_mem ⟨k, hkb⟩, Nat.ne_of_lt (hle.trans_lt hlt)⟩
  exact h.eq_of_mem_properMembers hb hleast hk

theorem map_least_keptBlocks :
    (m.keptBlocks.map fun b => b.least?.getD 0) = List.range m.states.size := by
  have hwf := h.wellFormed
  refine StateSet.toList_injective (ascending_keptBlocks hwf) List.pairwise_lt_range fun k => ?_
  rw [List.mem_map, List.mem_range]
  constructor
  · rintro ⟨b, hb, rfl⟩
    obtain ⟨q, hq⟩ := exists_properMember hwf hb
    rw [h.least_eq hb hq]
    exact lt_of_mem_properMembers hwf hb hq
  · intro hk
    obtain ⟨b, hb, hkb⟩ := (h.retained hk).exists_block hwf h.deterministic
    have hb := List.mem_of_getElem? hb
    exact ⟨b, hb, h.least_eq hb (mem_properMembers_iff.2 ⟨hkb, Nat.ne_of_lt hk⟩)⟩

theorem exists_keptBlock (hk : k < m.states.size) :
    ∃ b, m.keptBlocks[k]? = some b ∧ m.properMembers b = [k] := by
  have hleast : (m.keptBlocks.map fun b => b.least?.getD 0)[k]? = some k := by
    rw [h.map_least_keptBlocks, List.getElem?_range hk]
  rw [List.getElem?_map, Option.map_eq_some_iff] at hleast
  obtain ⟨b, hb, hleast⟩ := hleast
  have hmem := List.mem_of_getElem? hb
  obtain ⟨q, hq⟩ := exists_properMember h.wellFormed hmem
  obtain rfl := (h.least_eq hmem hq).symm.trans hleast
  exact ⟨b, hb, h.properMembers_eq hmem hq⟩

theorem classNumber_eq_self (hk : k < m.states.size) : m.classNumber k = k := by
  obtain ⟨b, hb, hproper⟩ := h.exists_keptBlock hk
  have hkb : k ∈ b := (mem_properMembers_iff.1 (hproper ▸ List.mem_singleton_self k)).1
  exact (h.retained hk).classNumber_eq h.wellFormed h.deterministic hb hkb

theorem size_states_merged_eq : m.merged.states.size = m.states.size := by
  rw [size_states_merged h.wellFormed, ← List.length_map, h.map_least_keptBlocks, List.length_range]

theorem stateName_merged_eq (hk : k < m.states.size) : m.merged.stateName k = m.stateName k := by
  obtain ⟨b, hb, hproper⟩ := h.exists_keptBlock hk
  rw [stateName_merged h.wellFormed hb, blockName, hproper]
  simp

/-- Nothing is left to minimize. -/
theorem merged_eq_self (htab : m.Tabular) : m.merged = m := by
  have hwf := h.wellFormed
  have hquotient := isLiveQuotient_merged hwf h.deterministic
  refine (tabular_merged hwf).eq htab (OrderedSet.ext ?_) rfl ?_ (StateSet.ext fun k => ?_)
    fun q hq i _ => StateSet.ext fun k => ?_
  · rw [← map_stateName_range, ← map_stateName_range, h.size_states_merged_eq]
    exact List.map_congr_left fun k hk => h.stateName_merged_eq (List.mem_range.1 hk)
  · rw [← hquotient.start, h.classNumber_eq_self hwf.start_lt]
  · by_cases hk : k < m.states.size
    · have haccept := hquotient.accept k (h.retained hk)
      rwa [h.classNumber_eq_self hk] at haccept
    · have hout := mt ((wellFormed_merged hwf).accept_lt k) (h.size_states_merged_eq ▸ hk)
      exact iff_of_false hout (mt (hwf.accept_lt k) hk)
  · have htargets := hquotient.targets q (h.retained hq) i k
    rw [h.classNumber_eq_self hq] at htargets
    rw [htargets]
    constructor
    · rintro ⟨r, hr, -, rfl⟩
      rwa [h.classNumber_eq_self (hwf.lt_of_mem_targets hr)]
    · exact fun hk => ⟨k, hk, h.live_of_mem_targets hk,
        h.classNumber_eq_self (hwf.lt_of_mem_targets hk)⟩

end Reduced

/-- What minimization yields is its own least automaton, in which states, symbols and transitions
have the same order. -/
theorem minimize_minimize (ha : a.Obtainable) (hm : a.minimize = .ok m) : m.minimize = .ok m := by
  obtain ⟨d, hd, rfl⟩ := map_eq_ok_iff.1 hm
  obtain ⟨hwf, hdet, -⟩ := toDeterministic_eq_ok ha.wellFormed hd
  have hself : d.merged.toDeterministic = .ok d.merged := if_pos isDeterministic_merged
  have hmerged := (reduced_merged hwf hdet).merged_eq_self (tabular_merged hwf)
  exact map_eq_ok_iff.2 ⟨d.merged, hself, hmerged⟩

theorem minimize_minimize_forked : ∃ a m, forked.build = .ok a ∧ a.minimize = .ok m ∧
    m.states.toList = ["s", "e", "l"] ∧ m.minimize = .ok m := by
  obtain ⟨a, ha, hvalues⟩ := map_eq_ok_iff.1 minimize_forked
  obtain ⟨hdet, -, hnames⟩ := by simpa only [Prod.mk.injEq] using hvalues
  have hm : a.minimize = .ok a.merged := map_eq_ok_iff.2 ⟨a, if_pos hdet, rfl⟩
  exact ⟨a, a.merged, ha, hm, hnames, minimize_minimize (.build ha) hm⟩

end Chomsky.Automaton
