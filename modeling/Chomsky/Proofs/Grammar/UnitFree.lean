import Chomsky.Grammar.UnitFree
import Chomsky.Proofs.Data.Outcome
import Chomsky.Proofs.Grammar.EpsilonFree
import Mathlib.Logic.Function.Iterate

/-! # What unit productions inherit

A nonterminal inherits the alternatives of those to which chains of unit productions lead. A round
of replacements changes nothing about this (`inherits_replaceUnits_iff`). The result is that of
several rounds, the last of which finds no unit production (`exists_iterate_of_replaceUnitsWithin`),
so its alternatives are what was inherited (`mem_alternatives_eliminateUnits_iff`).
-/

namespace Chomsky.Grammar

open Relation (ReflTransGen)

variable {g u : Grammar} {ps ps' : Productions} {lhs a b : SymbolId} {rhs form w : Form}
  {fuel n : Nat}

def UnitStep (g : Grammar) (ps : Productions) (a b : SymbolId) : Prop :=
  [b] ∈ ps.alternatives a ∧ ¬g.isTerminal b

def Inherits (g : Grammar) (ps : Productions) (lhs : SymbolId) (rhs : Form) : Prop :=
  ∃ b, ReflTransGen (g.UnitStep ps) lhs b ∧ rhs ∈ ps.alternatives b

theorem unitTarget?_eq_some_iff : g.unitTarget? rhs = some b ↔ rhs = [b] ∧ ¬g.isTerminal b := by
  unfold unitTarget?
  split
  · next c =>
    split
    · next hc =>
      refine ⟨nofun, fun ⟨heq, hb⟩ => ?_⟩
      rw [List.singleton_inj] at heq
      exact absurd (heq ▸ hc) hb
    · next hc =>
      rw [Option.some.injEq, List.singleton_inj]
      exact ⟨fun heq => ⟨heq, heq ▸ hc⟩, And.left⟩
  · next hne => exact ⟨nofun, fun ⟨heq, _⟩ => absurd heq (hne b)⟩

def IsUnit (g : Grammar) (rhs : Form) : Prop := ∃ b, rhs = [b] ∧ ¬g.isTerminal b

theorem unitTarget?_eq_none_iff : g.unitTarget? rhs = none ↔ ¬g.IsUnit rhs := by
  rw [Option.eq_none_iff_forall_ne_some, IsUnit, not_exists]
  exact forall_congr' fun b => not_congr unitTarget?_eq_some_iff

theorem unitStep_iff :
    g.UnitStep ps a b ↔ ∃ rhs ∈ ps.alternatives a, g.unitTarget? rhs = some b := by
  simp only [unitTarget?_eq_some_iff]
  constructor
  · rintro ⟨hmem, hb⟩
    exact ⟨[b], hmem, rfl, hb⟩
  · rintro ⟨_, hmem, rfl, hb⟩
    exact ⟨hmem, hb⟩

theorem mem_replaceUnits_iff : rhs ∈ (g.replaceUnits ps).alternatives lhs ↔
    rhs ∈ ps.alternatives lhs ∧ g.unitTarget? rhs = none ∨
      ∃ b, g.UnitStep ps lhs b ∧ b ≠ lhs ∧ rhs ∈ ps.alternatives b ∧ rhs ≠ [] := by
  have hreplace : ∀ alt, rhs ∈ g.unitReplacements ps lhs alt ↔
      g.unitTarget? alt = none ∧ rhs = alt ∨
        ∃ b, g.unitTarget? alt = some b ∧ b ≠ lhs ∧ rhs ∈ ps.alternatives b ∧ rhs ≠ [] := by
    intro alt
    unfold unitReplacements
    cases g.unitTarget? alt with
    | none => simp
    | some b => by_cases hb : b = lhs <;> simp [hb]
  rw [replaceUnits, Productions.mem_alternatives_mapValues_iff]
  simp only [mem_distinct, List.mem_flatMap, hreplace, unitStep_iff,
    @Productions.mem_alternatives_iff ps lhs]
  constructor
  · rintro ⟨alts, hget, alt, halt, ⟨hunit, rfl⟩ | ⟨b, hunit, hb, hrhs⟩⟩
    · exact Or.inl ⟨⟨alts, hget, halt⟩, hunit⟩
    · exact Or.inr ⟨b, ⟨alt, ⟨alts, hget, halt⟩, hunit⟩, hb, hrhs⟩
  · rintro (⟨⟨alts, hget, halt⟩, hunit⟩ | ⟨b, ⟨alt, ⟨alts, hget, halt⟩, hunit⟩, hb, hrhs⟩)
    · exact ⟨alts, hget, rhs, halt, Or.inl ⟨hunit, rfl⟩⟩
    · exact ⟨alts, hget, alt, halt, Or.inr ⟨b, hunit, hb, hrhs⟩⟩

theorem nil_mem_replaceUnits_iff :
    [] ∈ (g.replaceUnits ps).alternatives lhs ↔ [] ∈ ps.alternatives lhs := by
  rw [mem_replaceUnits_iff]
  constructor
  · rintro (⟨hmem, -⟩ | ⟨b, -, -, -, hne⟩)
    · exact hmem
    · exact absurd rfl hne
  · exact fun hmem => Or.inl ⟨hmem, rfl⟩

theorem Inherits.head (hstep : g.UnitStep ps a b) (h : g.Inherits ps b rhs) :
    g.Inherits ps a rhs := by
  obtain ⟨c, hchain, hrhs⟩ := h
  exact ⟨c, hchain.head hstep, hrhs⟩

theorem reflTransGen_of_unitStep_replaceUnits (h : g.UnitStep (g.replaceUnits ps) a b) :
    ReflTransGen (g.UnitStep ps) a b := by
  obtain ⟨hmem, hb⟩ := h
  rcases mem_replaceUnits_iff.1 hmem with ⟨hmem, -⟩ | ⟨c, hac, -, hmem, -⟩
  · exact .single ⟨hmem, hb⟩
  · exact .tail (.single hac) ⟨hmem, hb⟩

/-- A round changes nothing about what is inherited. -/
theorem inherits_replaceUnits_iff (hrhs : rhs ≠ []) (hunit : g.unitTarget? rhs = none) :
    g.Inherits (g.replaceUnits ps) lhs rhs ↔ g.Inherits ps lhs rhs := by
  constructor
  · rintro ⟨b, hchain, hmem⟩
    have hchain : ReflTransGen (g.UnitStep ps) lhs b :=
      Relation.reflTransGen_closed (fun _ _ => reflTransGen_of_unitStep_replaceUnits) _ _ hchain
    rcases mem_replaceUnits_iff.1 hmem with ⟨hmem, -⟩ | ⟨c, hbc, -, hmem, -⟩
    · exact ⟨b, hchain, hmem⟩
    · exact ⟨c, hchain.tail hbc, hmem⟩
  · rintro ⟨b, hchain, hmem⟩
    -- a round skips every other step, so the claim is also needed from one step further on
    suffices h : g.Inherits (g.replaceUnits ps) lhs rhs ∧
        (rhs ∈ ps.alternatives lhs ∨
          ∃ c, g.UnitStep ps lhs c ∧ g.Inherits (g.replaceUnits ps) c rhs) from h.1
    induction hchain using ReflTransGen.head_induction_on with
    | refl => exact ⟨⟨b, .refl, mem_replaceUnits_iff.2 (Or.inl ⟨hmem, hunit⟩)⟩, Or.inl hmem⟩
    | @head a c hstep _ ih =>
      obtain ⟨hc, hnext⟩ := ih
      refine ⟨?_, Or.inr ⟨c, hstep, hc⟩⟩
      by_cases hca : c = a
      · exact hca ▸ hc
      · have hmem : ∀ {alt}, alt ∈ ps.alternatives c → alt ≠ [] →
            alt ∈ (g.replaceUnits ps).alternatives a := fun halt hne =>
          mem_replaceUnits_iff.2 (Or.inr ⟨c, hstep, hca, halt, hne⟩)
        rcases hnext with hrhs' | ⟨d, ⟨hd, hterminal⟩, hinherits⟩
        · exact ⟨a, .refl, hmem hrhs' hrhs⟩
        · exact hinherits.head ⟨hmem hd (List.cons_ne_nil _ _), hterminal⟩

theorem any_hasUnit_iff : ps.values.any g.hasUnit ↔ ∃ a b, g.UnitStep ps a b := by
  simp only [List.any_eq_true, OrderedMap.mem_values_iff, hasUnit, Option.isSome_iff_exists,
    unitStep_iff, Productions.mem_alternatives_iff]
  constructor
  · rintro ⟨alts, ⟨a, hget⟩, alt, halt, b, hunit⟩
    exact ⟨a, b, alt, ⟨alts, hget, halt⟩, hunit⟩
  · rintro ⟨a, b, alt, ⟨alts, hget, halt⟩, hunit⟩
    exact ⟨alts, ⟨a, hget⟩, alt, halt, b, hunit⟩

theorem inherits_iff_of_unitFree (h : ∀ a b, ¬g.UnitStep ps a b) :
    g.Inherits ps lhs rhs ↔ rhs ∈ ps.alternatives lhs := by
  constructor
  · rintro ⟨b, hchain, hmem⟩
    cases hchain using ReflTransGen.head_induction_on with
    | refl => exact hmem
    | head hstep => exact absurd hstep (h _ _)
  · exact fun hmem => ⟨lhs, .refl, hmem⟩

theorem mem_replaceUnits_iff_of_unitFree (h : ∀ a b, ¬g.UnitStep ps a b) :
    rhs ∈ (g.replaceUnits ps).alternatives lhs ↔
      g.unitTarget? rhs = none ∧ rhs ∈ ps.alternatives lhs := by
  rw [mem_replaceUnits_iff, and_comm]
  refine or_iff_left ?_
  rintro ⟨b, hstep, -⟩
  exact h lhs b hstep

theorem exists_iterate_of_replaceUnitsWithin (h : g.replaceUnitsWithin fuel ps = .ok ps') :
    ∃ n, (∀ a b, ¬g.UnitStep (g.replaceUnits^[n] ps) a b) ∧ ps' = g.replaceUnits^[n + 1] ps := by
  induction fuel generalizing ps with
  | zero => cases h
  | succ fuel ih =>
    unfold replaceUnitsWithin at h
    split at h
    · obtain ⟨n, hfree, rfl⟩ := ih h
      exact ⟨n + 1, hfree, rfl⟩
    · next hnone =>
      cases h
      exact ⟨0, fun a b hstep => hnone (any_hasUnit_iff.2 ⟨a, b, hstep⟩), rfl⟩

theorem nil_mem_iterate_iff :
    [] ∈ (g.replaceUnits^[n] ps).alternatives lhs ↔ [] ∈ ps.alternatives lhs := by
  induction n generalizing ps with
  | zero => rfl
  | succ n ih => exact ih.trans nil_mem_replaceUnits_iff

theorem inherits_iterate_iff (hrhs : rhs ≠ []) (hunit : g.unitTarget? rhs = none) :
    g.Inherits (g.replaceUnits^[n] ps) lhs rhs ↔ g.Inherits ps lhs rhs := by
  induction n generalizing ps with
  | zero => rfl
  | succ n ih => exact ih.trans (inherits_replaceUnits_iff hrhs hunit)

theorem mem_alternatives_replaceUnitsWithin_iff (h : g.replaceUnitsWithin fuel ps = .ok ps') :
    rhs ∈ ps'.alternatives lhs ↔ g.unitTarget? rhs = none ∧
      (rhs = [] ∧ [] ∈ ps.alternatives lhs ∨ rhs ≠ [] ∧ g.Inherits ps lhs rhs) := by
  obtain ⟨n, hfree, rfl⟩ := exists_iterate_of_replaceUnitsWithin h
  rw [Function.iterate_succ_apply', mem_replaceUnits_iff_of_unitFree hfree]
  refine and_congr_right fun hunit => ?_
  by_cases hrhs : rhs = []
  · subst hrhs
    rw [nil_mem_iterate_iff]
    simp
  · rw [← inherits_iterate_iff hrhs hunit, inherits_iff_of_unitFree hfree]
    simp [hrhs]

theorem keys_replaceUnits : (g.replaceUnits ps).keys = ps.keys := OrderedMap.keys_mapValues

theorem keys_replaceUnitsWithin (h : g.replaceUnitsWithin fuel ps = .ok ps') :
    ps'.keys = ps.keys := by
  obtain ⟨n, -, rfl⟩ := exists_iterate_of_replaceUnitsWithin h
  exact Function.Iterate.rec (fun qs : Productions => qs.keys = ps.keys) rfl
    (fun _ hqs => keys_replaceUnits.trans hqs) _

theorem nodup_alternatives_replaceUnitsWithin (h : g.replaceUnitsWithin fuel ps = .ok ps') :
    (ps'.alternatives lhs).Nodup := by
  obtain ⟨n, -, rfl⟩ := exists_iterate_of_replaceUnitsWithin h
  rw [Function.iterate_succ_apply', replaceUnits]
  refine Productions.nodup_alternatives fun alts hget => ?_
  rw [OrderedMap.get?_mapValues] at hget
  obtain ⟨alts, -, rfl⟩ := Option.map_eq_some_iff.1 hget
  exact nodup_distinct

theorem over_replaceUnits {t : SymbolTable} (hps : ps.Over t) : (g.replaceUnits ps).Over t := by
  refine hps.of_mentions (fun k hk => keys_replaceUnits ▸ hk) fun {lhs rhs} hrhs s hs => ?_
  rcases mem_replaceUnits_iff.1 hrhs with ⟨hrhs, -⟩ | ⟨b, -, -, hrhs, -⟩
  · exact ⟨lhs, rhs, hrhs, hs⟩
  · exact ⟨b, rhs, hrhs, hs⟩

theorem over_replaceUnitsWithin {t : SymbolTable} (hps : ps.Over t)
    (h : g.replaceUnitsWithin fuel ps = .ok ps') : ps'.Over t := by
  obtain ⟨n, -, rfl⟩ := exists_iterate_of_replaceUnitsWithin h
  exact Function.Iterate.rec (Productions.Over · t) hps (fun _ => over_replaceUnits) _

theorem eliminateUnits_eq_ok (h : g.eliminateUnits = .ok u) : ∃ ps fuel,
    g.replaceUnitsWithin fuel g.productions = .ok ps ∧ u = ofProductions g.symbols g.start ps := by
  unfold eliminateUnits at h
  split at h
  · cases h
  · obtain ⟨ps, hps, rfl⟩ := map_eq_ok_iff.1 h
    exact ⟨ps, _, hps, rfl⟩

theorem symbols_eliminateUnits (h : g.eliminateUnits = .ok u) : u.symbols = g.symbols := by
  obtain ⟨ps, fuel, -, rfl⟩ := eliminateUnits_eq_ok h
  rfl

theorem start_eliminateUnits (h : g.eliminateUnits = .ok u) : u.start = g.start := by
  obtain ⟨ps, fuel, -, rfl⟩ := eliminateUnits_eq_ok h
  rfl

theorem keys_eliminateUnits (h : g.eliminateUnits = .ok u) :
    u.productions.keys = g.productions.keys := by
  obtain ⟨ps, fuel, hps, rfl⟩ := eliminateUnits_eq_ok h
  exact keys_replaceUnitsWithin hps

theorem nodup_alternatives_eliminateUnits (h : g.eliminateUnits = .ok u) :
    (u.alternatives lhs).Nodup := by
  obtain ⟨ps, fuel, hps, rfl⟩ := eliminateUnits_eq_ok h
  exact nodup_alternatives_replaceUnitsWithin hps

theorem Consistent.eliminateUnits (hg : g.Consistent) (h : g.eliminateUnits = .ok u) :
    u.Consistent := by
  obtain ⟨ps, fuel, hps, rfl⟩ := eliminateUnits_eq_ok h
  exact consistent_ofProductions hg.valid hg.isNonterminal_start
    (over_replaceUnitsWithin hg.productions_over hps)

/-- What the alternatives are when unit productions have been replaced. -/
theorem mem_alternatives_eliminateUnits_iff (h : g.eliminateUnits = .ok u) :
    rhs ∈ u.alternatives lhs ↔ g.unitTarget? rhs = none ∧
      (rhs = [] ∧ [] ∈ g.alternatives lhs ∨ rhs ≠ [] ∧ g.Inherits g.productions lhs rhs) := by
  obtain ⟨ps, fuel, hps, rfl⟩ := eliminateUnits_eq_ok h
  exact mem_alternatives_replaceUnitsWithin_iff hps

section Expansions

variable (h : g.eliminateUnits = .ok u)
include h

theorem isTerminal_eliminateUnits : u.isTerminal = g.isTerminal := by
  unfold isTerminal
  rw [symbols_eliminateUnits h]

theorem nil_mem_eliminateUnits_iff : [] ∈ u.alternatives lhs ↔ [] ∈ g.alternatives lhs := by
  rw [mem_alternatives_eliminateUnits_iff h]
  simp [unitTarget?]

theorem expands_of_eliminateUnits (hw : u.Expands form w) : g.Expands form w := by
  simp only [Expands, isTerminal_eliminateUnits h] at hw
  apply hw.of_rules
  intro lhs rhs w hrule hrhs
  obtain ⟨-, ⟨rfl, hnil⟩ | ⟨-, b, hchain, hmem⟩⟩ := (mem_alternatives_eliminateUnits_iff h).1 hrule
  · exact .of_rule hnil hrhs
  · clear hrule
    induction hchain using ReflTransGen.head_induction_on with
    | refl => exact .of_rule hmem hrhs
    | head hstep _ ih => exact .of_rule hstep.1 ih

/-- Without empty alternatives unit productions can be left out. -/
theorem expandsNonempty_eliminateUnits (hw : g.ExpandsNonempty form w) :
    u.ExpandsNonempty form w := by
  simp only [ExpandsNonempty, isTerminal_eliminateUnits h]
  apply hw.of_rules
  intro lhs rhs w hrule hrhs
  obtain ⟨hmem, hne⟩ := hrule
  cases hunit : g.unitTarget? rhs with
  | none =>
    refine .of_rule ⟨(mem_alternatives_eliminateUnits_iff h).2 ⟨hunit, Or.inr ⟨hne, ?_⟩⟩, hne⟩ hrhs
    exact ⟨lhs, .refl, hmem⟩
  | some b =>
    obtain ⟨rfl, hb⟩ := unitTarget?_eq_some_iff.1 hunit
    obtain ⟨rhs', ⟨hmem', hne'⟩, hrhs'⟩ := hrhs.exists_rule hb
    obtain ⟨hunit', hcases⟩ := (mem_alternatives_eliminateUnits_iff h).1 hmem'
    have hinherits := (hcases.resolve_left fun heq => hne' heq.1).2.head ⟨hmem, hb⟩
    refine .of_rule ⟨?_, hne'⟩ hrhs'
    exact (mem_alternatives_eliminateUnits_iff h).2 ⟨hunit', Or.inr ⟨hne', hinherits⟩⟩

theorem EmptyOnlyAtStart.eliminateUnits (hg : g.EmptyOnlyAtStart) : u.EmptyOnlyAtStart where
  eq_start hnil := by
    rw [start_eliminateUnits h]
    exact hg.eq_start ((nil_mem_eliminateUnits_iff h).1 hnil)
  nonempty {w} hw hne := by
    rw [start_eliminateUnits h] at hw ⊢
    exact expandsNonempty_eliminateUnits h (hg.nonempty (expands_of_eliminateUnits h hw) hne)

theorem EmptyOnlyAtStart.expands_eliminateUnits_iff (hg : g.EmptyOnlyAtStart) :
    u.Expands [u.start] w ↔ g.Expands [g.start] w := by
  rw [start_eliminateUnits h]
  refine ⟨expands_of_eliminateUnits h, fun hw => ?_⟩
  by_cases hne : w = []
  · subst hne
    exact .of_rule ((nil_mem_eliminateUnits_iff h).2 (hg.nil_mem hw)) .nil
  · exact (expandsNonempty_eliminateUnits h (hg.nonempty hw hne)).expands

end Expansions

/-- A nonempty word does not need the empty alternative to which a unit production may lead, because
the variants without nullable symbols are there. -/
theorem expands_eliminateUnits_eliminateEpsilon_iff (h : g.eliminateEpsilon.eliminateUnits = .ok u)
    (hw : w ≠ []) : u.Expands [a] w ↔ g.eliminateEpsilon.Expands [a] w := by
  refine ⟨expands_of_eliminateUnits h, fun hexpands => ?_⟩
  have hnonempty := expandsNonempty_eliminateEpsilon (expands_of_eliminateEpsilon hexpands) hw
  exact (expandsNonempty_eliminateUnits h hnonempty).expands

end Chomsky.Grammar
