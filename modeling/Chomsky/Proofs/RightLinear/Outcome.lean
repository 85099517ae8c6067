import Chomsky.Proofs.RightLinear.Recognizer
import Mathlib.Data.List.Basic

/-! # Which grammars have an automaton

Each production adds a transition or an accepting state (`addProductions_eq_ok`). An automaton
exists if all right-hand sides are right-linear, and the first one that is not is the cause if it
does not.
-/

namespace Chomsky

namespace Transitions

def Leads (ts : Transitions) (q : StateId) (i : SymbolIndex) (r : StateId) : Prop :=
  ∃ s, ts.get? (q, i) = some s ∧ r ∈ s

variable {ts : Transitions} {p q r t : StateId} {i j : SymbolIndex}

theorem not_leads_empty : ¬Leads ∅ q i r := fun ⟨_, h, _⟩ => nomatch h

theorem leads_add_iff : (ts.add q i r).Leads p j t ↔ ts.Leads p j t ∨ p = q ∧ j = i ∧ t = r := by
  unfold Leads
  rw [get?_add]
  by_cases hk : (p, j) = (q, i)
  · obtain ⟨rfl, rfl⟩ := Prod.mk.inj hk
    simp only [if_true, Option.some.injEq, exists_eq_left', StateSet.mem_insert, true_and]
    cases ts.get? (p, j) with
    | none => simp
    | some s => simp [or_comm]
  · rw [if_neg hk]
    constructor
    · exact Or.inl
    · rintro (h | ⟨rfl, rfl, -⟩)
      · exact h
      · exact absurd rfl hk

end Transitions

namespace Grammar

variable {g : Grammar} {a : Automaton} {s lhs : SymbolId} {rhs : Form} {q r : StateId}
  {i : SymbolIndex} {rule : SymbolId × Form} {rules : List (SymbolId × Form)}
  {state state' : Transitions × StateSet}

/-- Right-hand sides of right-linear productions: nothing, a terminal, or a terminal with a
nonterminal after it. -/
def RightLinear (g : Grammar) (rhs : Form) : Prop :=
  rhs = [] ∨ (∃ a, rhs = [a] ∧ g.isTerminal a) ∨
    ∃ a m, rhs = [a, m] ∧ g.isTerminal a ∧ g.symbols.isNonterminal m

instance : Decidable (g.RightLinear rhs) :=
  match rhs with
  | [] => isTrue (Or.inl rfl)
  | [a] => decidable_of_iff (g.isTerminal a) (by simp [RightLinear])
  | [a, m] => decidable_of_iff (g.isTerminal a ∧ g.symbols.isNonterminal m) (by simp [RightLinear])
  | _ :: _ :: _ :: _ => isFalse (by simp [RightLinear])

section Productions

theorem stateOf_eq_ok_iff : g.stateOf s = .ok q ↔ g.nonterminals.get? q = some s := by
  rw [← OrderedSet.get?_idxOf?_iff]
  unfold stateOf
  cases g.nonterminals.idxOf? s <;> simp

theorem exists_stateOf (hs : s ∈ g.nonterminals) : ∃ q, g.stateOf s = .ok q := by
  obtain ⟨q, hq⟩ := Option.isSome_iff_exists.1 (OrderedSet.idxOf?_isSome_iff.2 hs)
  exact ⟨q, stateOf_eq_ok_iff.2 (OrderedSet.get?_idxOf?_iff.1 hq)⟩

theorem transition?_singleton_iff {b : SymbolId} : g.transition? [b] = some (i, r) ↔
    g.terminals.get? i = some b ∧ r = g.sentinel := by
  rw [← OrderedSet.get?_idxOf?_iff, transition?]
  cases g.terminals.idxOf? b <;> simp [eq_comm]

theorem transition?_pair_iff {b m : SymbolId} : g.transition? [b, m] = some (i, r) ↔
    g.terminals.get? i = some b ∧ g.nonterminals.get? r = some m := by
  rw [← OrderedSet.get?_idxOf?_iff, ← OrderedSet.get?_idxOf?_iff, transition?]
  cases g.terminals.idxOf? b with
  | none => simp
  | some j => cases g.nonterminals.idxOf? m <;> simp

theorem exists_of_transition? (h : g.transition? rhs = some (i, r)) :
    (∃ b, rhs = [b]) ∨ ∃ b m, rhs = [b, m] := by
  unfold transition? at h
  split at h
  · exact Or.inl ⟨_, rfl⟩
  · exact Or.inr ⟨_, _, rfl⟩
  · cases h

theorem addProduction_nil (hq : g.stateOf lhs = .ok q) :
    g.addProduction state (lhs, []) = .ok (state.1, state.2.insert q) := by
  rw [addProduction, hq]
  rfl

theorem addProduction_transition (hq : g.stateOf lhs = .ok q)
    (ht : g.transition? rhs = some (i, r)) :
    g.addProduction state (lhs, rhs) = .ok (state.1.add q i r, state.2) := by
  have hne : rhs.isEmpty = false := by
    rcases exists_of_transition? ht with ⟨b, rfl⟩ | ⟨b, m, rfl⟩
    · rfl
    · rfl
  rw [addProduction, hq]
  simp only [hne, ht]
  rfl

theorem addProduction_eq_error (hq : g.stateOf lhs = .ok q) (hne : rhs ≠ [])
    (ht : g.transition? rhs = none) : g.addProduction state (lhs, rhs) =
      .error (.notRightLinear (g.name lhs) (g.symbols.render rhs)) := by
  have hne : rhs.isEmpty = false := by simpa using hne
  rw [addProduction, hq]
  simp only [hne, ht]
  rfl

def RuleLeads (g : Grammar) (rule : SymbolId × Form) (q : StateId) (i : SymbolIndex)
    (r : StateId) : Prop :=
  g.stateOf rule.1 = .ok q ∧ g.transition? rule.2 = some (i, r)

def RuleAccepts (g : Grammar) (rule : SymbolId × Form) (q : StateId) : Prop :=
  g.stateOf rule.1 = .ok q ∧ rule.2 = []

theorem addProduction_eq_ok (h : g.addProduction state rule = .ok state') :
    (∀ q i r, state'.1.Leads q i r ↔ state.1.Leads q i r ∨ g.RuleLeads rule q i r) ∧
      ∀ q, q ∈ state'.2 ↔ q ∈ state.2 ∨ g.RuleAccepts rule q := by
  obtain ⟨lhs, rhs⟩ := rule
  obtain ⟨p, hp, -⟩ := bind_eq_ok_iff.1 h
  have hstate : ∀ q, g.stateOf lhs = .ok q ↔ q = p := fun q => by
    rw [hp, Except.ok.injEq, eq_comm]
  simp only [RuleLeads, RuleAccepts, hstate]
  by_cases hne : rhs = []
  · subst hne
    rw [addProduction_nil hp] at h
    cases h
    refine ⟨fun q i r => ?_, fun q => ?_⟩
    · simp [transition?]
    · simp [or_comm]
  · cases ht : g.transition? rhs with
    | none =>
      rw [addProduction_eq_error hp hne ht] at h
      cases h
    | some edge =>
      rw [addProduction_transition hp ht] at h
      cases h
      refine ⟨fun q i r => ?_, fun q => ?_⟩
      · rw [Transitions.leads_add_iff, Option.some.injEq, Prod.ext_iff, eq_comm (a := i),
          eq_comm (a := r)]
      · simp [hne]

theorem addProductions_eq_ok (h : rules.foldlM g.addProduction state = .ok state') :
    (∀ q i r, state'.1.Leads q i r ↔
      state.1.Leads q i r ∨ ∃ rule ∈ rules, g.RuleLeads rule q i r) ∧
    ∀ q, q ∈ state'.2 ↔ q ∈ state.2 ∨ ∃ rule ∈ rules, g.RuleAccepts rule q := by
  induction rules generalizing state with
  | nil =>
    cases h
    exact ⟨by simp, by simp⟩
  | cons rule rules ih =>
    rw [List.foldlM_cons] at h
    obtain ⟨state₁, hrule, h⟩ := bind_eq_ok_iff.1 h
    obtain ⟨hleads, haccepts⟩ := addProduction_eq_ok hrule
    obtain ⟨hleads', haccepts'⟩ := ih h
    refine ⟨fun q i r => ?_, fun q => ?_⟩
    · rw [hleads', hleads, List.exists_mem_cons_iff, or_assoc]
    · rw [haccepts', haccepts, List.exists_mem_cons_iff, or_assoc]

end Productions

section Outcome

variable (hg : g.Consistent)
include hg

theorem Consistent.mem_terminals_iff {b : SymbolId} (hrhs : rhs ∈ g.alternatives lhs)
    (hb : b ∈ rhs) : b ∈ g.terminals ↔ g.isTerminal b := by
  constructor
  · exact hg.terminal b
  · intro hterminal
    refine (hg.symbol_mem hrhs b hb).resolve_left fun hmem => ?_
    exact hg.not_isTerminal_of_mem hmem hterminal

theorem Consistent.mem_nonterminals_iff {m : SymbolId} (hrhs : rhs ∈ g.alternatives lhs)
    (hm : m ∈ rhs) : m ∈ g.nonterminals ↔ g.symbols.isNonterminal m := by
  constructor
  · exact hg.nonterminal m
  · intro hnonterminal
    refine (hg.symbol_mem hrhs m hm).resolve_right fun hmem => ?_
    exact SymbolTable.not_isTerminal_of_isNonterminal hnonterminal (hg.terminal m hmem)

/-- The right-hand sides that give transitions are the right-linear ones. -/
theorem Consistent.exists_transition?_iff (hrhs : rhs ∈ g.alternatives lhs) (hne : rhs ≠ []) :
    (∃ edge, g.transition? rhs = some edge) ↔ g.RightLinear rhs := by
  constructor
  · rintro ⟨⟨i, r⟩, h⟩
    rcases exists_of_transition? h with ⟨b, rfl⟩ | ⟨b, m, rfl⟩
    · obtain ⟨hb, -⟩ := transition?_singleton_iff.1 h
      exact Or.inr (Or.inl ⟨b, rfl, hg.terminal b (OrderedSet.mem_iff_get?.2 ⟨i, hb⟩)⟩)
    · obtain ⟨hb, hm⟩ := transition?_pair_iff.1 h
      exact Or.inr (Or.inr ⟨b, m, rfl, hg.terminal b (OrderedSet.mem_iff_get?.2 ⟨i, hb⟩),
        hg.nonterminal m (OrderedSet.mem_iff_get?.2 ⟨r, hm⟩)⟩)
  · rintro (rfl | ⟨b, rfl, hb⟩ | ⟨b, m, rfl, hb, hm⟩)
    · exact absurd rfl hne
    · obtain ⟨i, hi⟩ := OrderedSet.mem_iff_get?.1
        ((hg.mem_terminals_iff hrhs List.mem_cons_self).2 hb)
      exact ⟨(i, g.sentinel), transition?_singleton_iff.2 ⟨hi, rfl⟩⟩
    · obtain ⟨i, hi⟩ := OrderedSet.mem_iff_get?.1
        ((hg.mem_terminals_iff hrhs List.mem_cons_self).2 hb)
      obtain ⟨r, hr⟩ := OrderedSet.mem_iff_get?.1
        ((hg.mem_nonterminals_iff hrhs (List.mem_cons_of_mem b List.mem_cons_self)).2 hm)
      exact ⟨(i, r), transition?_pair_iff.2 ⟨hi, hr⟩⟩

theorem Consistent.exists_stateOf_lhs (hrhs : rhs ∈ g.alternatives lhs) :
    ∃ q, g.stateOf lhs = .ok q :=
  exists_stateOf (hg.key_mem lhs (Productions.mem_keys_of_mem_alternatives hrhs))

theorem Consistent.exists_addProduction (state : Transitions × StateSet)
    (hrhs : rhs ∈ g.alternatives lhs) (hlinear : g.RightLinear rhs) :
    ∃ state', g.addProduction state (lhs, rhs) = .ok state' := by
  obtain ⟨q, hq⟩ := hg.exists_stateOf_lhs hrhs
  by_cases hne : rhs = []
  · subst hne
    exact ⟨_, addProduction_nil hq⟩
  · obtain ⟨⟨i, r⟩, ht⟩ := (hg.exists_transition?_iff hrhs hne).2 hlinear
    exact ⟨_, addProduction_transition hq ht⟩

theorem Consistent.addProduction_eq_error (state : Transitions × StateSet)
    (hrhs : rhs ∈ g.alternatives lhs) (hlinear : ¬g.RightLinear rhs) :
    g.addProduction state (lhs, rhs) =
      .error (.notRightLinear (g.name lhs) (g.symbols.render rhs)) := by
  obtain ⟨q, hq⟩ := hg.exists_stateOf_lhs hrhs
  have hne : rhs ≠ [] := fun hnil => hlinear (Or.inl hnil)
  refine Grammar.addProduction_eq_error hq hne (Option.eq_none_iff_forall_ne_some.2 ?_)
  exact fun edge ht => hlinear ((hg.exists_transition?_iff hrhs hne).1 ⟨edge, ht⟩)

theorem Consistent.exists_addProductions (state : Transitions × StateSet)
    (hrules : ∀ rule ∈ rules, rule ∈ g.rules ∧ g.RightLinear rule.2) :
    ∃ state', rules.foldlM g.addProduction state = .ok state' := by
  induction rules generalizing state with
  | nil => exact ⟨state, rfl⟩
  | cons rule rules ih =>
    obtain ⟨⟨hrule, hlinear⟩, hrules⟩ := List.forall_mem_cons.1 hrules
    obtain ⟨state₁, h⟩ := hg.exists_addProduction state (mem_rules.1 hrule) hlinear
    obtain ⟨state₂, h'⟩ := ih state₁ hrules
    exact ⟨state₂, by rw [List.foldlM_cons, h]; exact h'⟩

theorem Consistent.exists_toAutomaton (hlinear : ∀ rule ∈ g.rules, g.RightLinear rule.2) :
    ∃ a, g.toAutomaton = .ok a := by
  obtain ⟨state, hstate⟩ := hg.exists_addProductions (∅, .singleton g.sentinel)
    fun rule hrule => ⟨hrule, hlinear rule hrule⟩
  obtain ⟨q, hq⟩ := exists_stateOf hg.start_mem
  rw [toAutomaton, hstate, hq]
  exact ⟨_, rfl⟩

theorem Consistent.toAutomaton_eq_error {before after : List (SymbolId × Form)}
    (hrules : g.rules = before ++ (lhs, rhs) :: after)
    (hbefore : ∀ rule ∈ before, g.RightLinear rule.2) (hlinear : ¬g.RightLinear rhs) :
    g.toAutomaton = .error (.notRightLinear (g.name lhs) (g.symbols.render rhs)) := by
  have hmem : ∀ rule ∈ before ++ (lhs, rhs) :: after, rule ∈ g.rules := fun rule h => hrules ▸ h
  obtain ⟨hbefore', hrest⟩ := List.forall_mem_append.1 hmem
  obtain ⟨state, hstate⟩ := hg.exists_addProductions (∅, .singleton g.sentinel)
    fun rule hrule => ⟨hbefore' rule hrule, hbefore rule hrule⟩
  have herror := hg.addProduction_eq_error state
    (mem_rules.1 (hrest _ List.mem_cons_self)) hlinear
  rw [toAutomaton, hrules, List.foldlM_append, hstate]
  change ((List.foldlM g.addProduction state ((lhs, rhs) :: after)) >>= _) = _
  rw [List.foldlM_cons, herror]
  rfl

theorem Consistent.rightLinear_of_toAutomaton (h : g.toAutomaton = .ok a)
    (hrhs : rhs ∈ g.alternatives lhs) : g.RightLinear rhs := by
  obtain ⟨state, hstate, -⟩ := bind_eq_ok_iff.1 h
  obtain ⟨before, after, hrules⟩ := List.append_of_mem (mem_rules.2 hrhs)
  apply Classical.byContradiction
  intro hlinear
  rw [hrules, List.foldlM_append] at hstate
  obtain ⟨state₁, -, hstate⟩ := bind_eq_ok_iff.1 hstate
  rw [List.foldlM_cons, hg.addProduction_eq_error state₁ hrhs hlinear] at hstate
  cases hstate

end Outcome

end Grammar
end Chomsky
