import Chomsky.Grammar.Derivation
import Chomsky.Proofs.Obtainable
import Chomsky.Proofs.RightLinear.Outcome
import Mathlib

/-! # The language of a right-linear grammar

A right-linear grammar derives a word letter by letter, and its automaton reads it so: a state is
left by the productions of its nonterminal, and the extra state ends the word
(`generatesFrom_iff_acceptedFrom`).
-/

namespace Chomsky

namespace Automaton

/-- A word leads from a state to an accepting one. -/
def AcceptedFrom (a : Automaton) (q : StateId) (w : List String) : Prop :=
  ∃ r ∈ a.accept, a.Run q w r

variable {a : Automaton} {q : StateId} {x : String} {w : List String}

theorem accepts_iff_acceptedFrom : a.accepts w ↔ a.AcceptedFrom a.start w := accepts_iff

theorem acceptedFrom_nil_iff : a.AcceptedFrom q [] ↔ q ∈ a.accept := by
  constructor
  · rintro ⟨r, hr, hrun⟩
    cases hrun
    exact hr
  · exact fun hq => ⟨q, hq, .nil q⟩

theorem acceptedFrom_cons_iff : a.AcceptedFrom q (x :: w) ↔
    ∃ i, a.symbolIndex? x = some i ∧ ∃ r ∈ a.targets q i, a.AcceptedFrom r w := by
  constructor
  · rintro ⟨r, hr, hrun⟩
    cases hrun with
    | cons hx hq hrun => exact ⟨_, hx, _, hq, r, hr, hrun⟩
  · rintro ⟨i, hx, p, hp, r, hr, hrun⟩
    exact ⟨r, hr, .cons hx hp hrun⟩

end Automaton

namespace Grammar

variable {g : Grammar} {a : Automaton} {s : SymbolId} {u : Form} {w : List String} {x : String}
  {q r : StateId} {i : SymbolIndex}

section Derivations

variable (hg : g.Consistent)
include hg

theorem Consistent.expands_cons_iff {b : SymbolId} {v : Form} (hb : g.isTerminal b) :
    g.Expands (b :: u) v ↔ ∃ v', v = b :: v' ∧ g.Expands u v' := by
  constructor
  · intro h
    cases h with
    | terminal _ hu => exact ⟨_, rfl, hu⟩
    | expand hrule _ _ =>
      exact absurd hb (hg.not_isTerminal_lhs hrule)
  · rintro ⟨v', rfl, hu⟩
    exact .terminal hb hu

variable (hs : g.symbols.isNonterminal s)
  (hlinear : ∀ rhs ∈ g.alternatives s, g.RightLinear rhs)
include hs hlinear

/-- A right-linear grammar derives the empty word by an empty alternative. -/
theorem Consistent.generatesFrom_nil_iff : g.GeneratesFrom s [] ↔ [] ∈ g.alternatives s := by
  rw [generatesFrom_iff]
  constructor
  · rintro ⟨word, h, hnames⟩
    obtain rfl := List.map_eq_nil_iff.1 hnames
    obtain ⟨rhs, hrhs, h⟩ := h.exists_rule (SymbolTable.not_isTerminal_of_isNonterminal hs)
    rcases hlinear rhs hrhs with rfl | ⟨b, rfl, hb⟩ | ⟨b, m, rfl, hb, -⟩
    · exact hrhs
    · obtain ⟨_, hnil, -⟩ := (hg.expands_cons_iff hb).1 h
      cases hnil
    · obtain ⟨_, hnil, -⟩ := (hg.expands_cons_iff hb).1 h
      cases hnil
  · exact fun hnil => ⟨[], .of_rule hnil .nil, rfl⟩

/-- It derives a longer word by the production for its first letter. -/
theorem Consistent.generatesFrom_cons_iff : g.GeneratesFrom s (x :: w) ↔
    ∃ b, g.isTerminal b ∧ g.symbols.name? b = some x ∧
      ([b] ∈ g.alternatives s ∧ w = [] ∨
        ∃ m, [b, m] ∈ g.alternatives s ∧ g.symbols.isNonterminal m ∧ g.GeneratesFrom m w) := by
  simp only [generatesFrom_iff]
  constructor
  · rintro ⟨word, h, hnames⟩
    obtain ⟨rhs, hrhs, h⟩ := h.exists_rule (SymbolTable.not_isTerminal_of_isNonterminal hs)
    rcases hlinear rhs hrhs with rfl | ⟨b, rfl, hb⟩ | ⟨b, m, rfl, hb, hm⟩
    · obtain rfl := expands_nil_iff.1 h
      cases hnames
    · obtain ⟨v, rfl, hv⟩ := (hg.expands_cons_iff hb).1 h
      obtain rfl := expands_nil_iff.1 hv
      obtain ⟨hname, hnames⟩ := List.cons.inj hnames
      exact ⟨b, hb, hname, Or.inl ⟨hrhs, List.map_eq_nil_iff.1 hnames.symm⟩⟩
    · obtain ⟨v, rfl, hv⟩ := (hg.expands_cons_iff hb).1 h
      obtain ⟨hname, hnames⟩ := List.cons.inj hnames
      exact ⟨b, hb, hname, Or.inr ⟨m, hrhs, hm, v, hv, hnames⟩⟩
  · rintro ⟨b, hb, hname, ⟨hrhs, rfl⟩ | ⟨m, hrhs, -, v, hv, hnames⟩⟩
    · exact ⟨[b], .of_rule hrhs (.terminal hb .nil), by rw [List.map_singleton, hname]; rfl⟩
    · refine ⟨b :: v, .of_rule hrhs (.terminal hb hv), ?_⟩
      rw [List.map_cons, List.map_cons, hname, hnames]

end Derivations

section Runs

variable (h : g.toAutomaton = .ok a)
include h

theorem mem_targets_toAutomaton_iff : r ∈ a.targets q i ↔
    ∃ lhs rhs, rhs ∈ g.alternatives lhs ∧ g.RuleLeads (lhs, rhs) q i r := by
  obtain ⟨⟨state, hstate, htransitions, -⟩, -⟩ := toAutomaton_eq_ok h
  rw [Automaton.mem_targets_iff, htransitions]
  refine ((addProductions_eq_ok hstate).1 q i r).trans ?_
  simp only [Transitions.not_leads_empty, false_or, Prod.exists, mem_rules]

theorem mem_accept_toAutomaton_iff : q ∈ a.accept ↔
    q = g.sentinel ∨ ∃ lhs, [] ∈ g.alternatives lhs ∧ g.stateOf lhs = .ok q := by
  obtain ⟨⟨state, hstate, -, haccept⟩, -⟩ := toAutomaton_eq_ok h
  rw [haccept, (addProductions_eq_ok hstate).2 q, StateSet.mem_singleton]
  simp only [RuleAccepts, Prod.exists, mem_rules]
  refine or_congr_right (exists_congr fun lhs => ?_)
  constructor
  · rintro ⟨_, hrhs, hq, rfl⟩
    exact ⟨hrhs, hq⟩
  · rintro ⟨hrhs, hq⟩
    exact ⟨[], hrhs, hq, rfl⟩

/-- The targets of the state of a nonterminal are given by its alternatives. -/
theorem mem_targets_stateOf_iff (hq : g.stateOf s = .ok q) : r ∈ a.targets q i ↔
    ∃ b, g.terminals.get? i = some b ∧ ([b] ∈ g.alternatives s ∧ r = g.sentinel ∨
      ∃ m, [b, m] ∈ g.alternatives s ∧ g.nonterminals.get? r = some m) := by
  have hlhs : ∀ {lhs}, g.stateOf lhs = .ok q → lhs = s := fun hlhs => by
    rw [stateOf_eq_ok_iff] at hlhs hq
    exact Option.some.inj (hlhs.symm.trans hq)
  rw [mem_targets_toAutomaton_iff h]
  constructor
  · rintro ⟨lhs, rhs, hrhs, hlhs', ht⟩
    obtain rfl := hlhs hlhs'
    rcases exists_of_transition? ht with ⟨b, rfl⟩ | ⟨b, m, rfl⟩
    · obtain ⟨hb, hr⟩ := transition?_singleton_iff.1 ht
      exact ⟨b, hb, Or.inl ⟨hrhs, hr⟩⟩
    · obtain ⟨hb, hm⟩ := transition?_pair_iff.1 ht
      exact ⟨b, hb, Or.inr ⟨m, hrhs, hm⟩⟩
  · rintro ⟨b, hb, ⟨hrhs, hr⟩ | ⟨m, hrhs, hm⟩⟩
    · exact ⟨s, [b], hrhs, hq, transition?_singleton_iff.2 ⟨hb, hr⟩⟩
    · exact ⟨s, [b, m], hrhs, hq, transition?_pair_iff.2 ⟨hb, hm⟩⟩

theorem mem_accept_stateOf_iff (hq : g.stateOf s = .ok q) :
    q ∈ a.accept ↔ [] ∈ g.alternatives s := by
  have hne : q ≠ g.sentinel := Nat.ne_of_lt (stateOf_lt hq)
  rw [mem_accept_toAutomaton_iff h, or_iff_right hne]
  constructor
  · rintro ⟨lhs, hnil, hlhs⟩
    rw [stateOf_eq_ok_iff] at hlhs hq
    exact Option.some.inj (hlhs.symm.trans hq) ▸ hnil
  · exact fun hnil => ⟨s, hnil, hq⟩

theorem acceptedFrom_sentinel_iff : a.AcceptedFrom g.sentinel w ↔ w = [] := by
  cases w with
  | nil =>
    rw [Automaton.acceptedFrom_nil_iff, mem_accept_toAutomaton_iff h]
    exact ⟨fun _ => rfl, fun _ => Or.inl rfl⟩
  | cons x w =>
    rw [Automaton.acceptedFrom_cons_iff]
    constructor
    · rintro ⟨i, -, r, hr, -⟩
      obtain ⟨lhs, rhs, -, hlhs, -⟩ := (mem_targets_toAutomaton_iff h).1 hr
      exact absurd (stateOf_lt hlhs) (Nat.lt_irrefl _)
    · exact nofun

end Runs

section Words

variable (hg : g.Consistent) (h : g.toAutomaton = .ok a)
include hg h

theorem toList_alphabet_toAutomaton : a.alphabet.toList = g.terminals.toList.map g.name := by
  obtain ⟨-, -, -, halphabet⟩ := toAutomaton_eq_ok h
  rw [halphabet]
  exact OrderedSet.toList_ofList_of_nodup <| SymbolTable.nodup_map_name g.terminals.nodup
    fun s hs => SymbolTable.lt_size_of_isTerminal (hg.terminal s hs)

theorem symbolIndex?_toAutomaton_iff : a.symbolIndex? x = some i ↔
    ∃ b, g.terminals.get? i = some b ∧ g.symbols.name? b = some x := by
  rw [Automaton.symbolIndex?, OrderedSet.get?_idxOf?_iff, ← OrderedSet.getElem?_toList,
    toList_alphabet_toAutomaton hg h, List.getElem?_map, Option.map_eq_some_iff,
    OrderedSet.getElem?_toList]
  refine exists_congr fun b => and_congr_right fun hb => ?_
  have hlt := SymbolTable.lt_size_of_isTerminal (hg.terminal b (OrderedSet.mem_iff_get?.2 ⟨i, hb⟩))
  rw [← SymbolTable.lookup?_eq_some_iff]
  constructor
  · rintro rfl
    exact SymbolTable.lookup?_name hlt
  · intro hx
    rw [name, SymbolTable.name, SymbolTable.lookup?_eq_some_iff.1 hx, Option.getD_some]

/-- A nonterminal derives what leads from its state to an accepting one. -/
theorem generatesFrom_iff_acceptedFrom (hq : g.stateOf s = .ok q) :
    g.GeneratesFrom s w ↔ a.AcceptedFrom q w := by
  have hs : ∀ {s q}, g.stateOf s = .ok q → g.symbols.isNonterminal s := fun hq =>
    hg.nonterminal _ (OrderedSet.mem_iff_get?.2 ⟨_, stateOf_eq_ok_iff.1 hq⟩)
  have hlinear : ∀ s, ∀ rhs ∈ g.alternatives s, g.RightLinear rhs := fun s rhs hrhs =>
    hg.rightLinear_of_toAutomaton h hrhs
  induction w generalizing s q with
  | nil =>
    rw [hg.generatesFrom_nil_iff (hs hq) (hlinear s), Automaton.acceptedFrom_nil_iff,
      mem_accept_stateOf_iff h hq]
  | cons x w ih =>
    rw [hg.generatesFrom_cons_iff (hs hq) (hlinear s), Automaton.acceptedFrom_cons_iff]
    simp only [symbolIndex?_toAutomaton_iff hg h, mem_targets_stateOf_iff h hq]
    constructor
    · rintro ⟨b, hb, hname, hcases⟩
      have hmem : ∀ {rhs}, b :: rhs ∈ g.alternatives s → ∃ i, g.terminals.get? i = some b :=
        fun hrhs => OrderedSet.mem_iff_get?.1
          ((hg.mem_terminals_iff hrhs List.mem_cons_self).2 hb)
      rcases hcases with ⟨hrhs, rfl⟩ | ⟨m, hrhs, hm, hw⟩
      · obtain ⟨i, hi⟩ := hmem hrhs
        exact ⟨i, ⟨b, hi, hname⟩, g.sentinel, ⟨b, hi, Or.inl ⟨hrhs, rfl⟩⟩,
          (acceptedFrom_sentinel_iff h).2 rfl⟩
      · obtain ⟨i, hi⟩ := hmem hrhs
        obtain ⟨r, hr⟩ := OrderedSet.mem_iff_get?.1
          ((hg.mem_nonterminals_iff hrhs (List.mem_cons_of_mem b List.mem_cons_self)).2 hm)
        exact ⟨i, ⟨b, hi, hname⟩, r, ⟨b, hi, Or.inr ⟨m, hrhs, hr⟩⟩,
          (ih (stateOf_eq_ok_iff.2 hr)).1 hw⟩
    · rintro ⟨i, ⟨b, hi, hname⟩, r, ⟨b', hi', hcases⟩, hw⟩
      obtain rfl := Option.some.inj (hi.symm.trans hi')
      have hb := hg.terminal b (OrderedSet.mem_iff_get?.2 ⟨i, hi⟩)
      rcases hcases with ⟨hrhs, rfl⟩ | ⟨m, hrhs, hm⟩
      · exact ⟨b, hb, hname, Or.inl ⟨hrhs, (acceptedFrom_sentinel_iff h).1 hw⟩⟩
      · have hq' := stateOf_eq_ok_iff.2 hm
        exact ⟨b, hb, hname, Or.inr ⟨m, hrhs, hs hq', (ih hq').2 hw⟩⟩

theorem accepts_toAutomaton_iff : a.accepts w ↔ g.Generates w := by
  rw [Automaton.accepts_iff_acceptedFrom, Generates,
    generatesFrom_iff_acceptedFrom hg h ((toAutomaton_eq_ok h).2.1)]

end Words

/-- A grammar has an automaton if its productions are right-linear, and the first production that is
not is the cause if it has none. The automaton accepts the words of the grammar. -/
theorem toAutomaton_spec (hg : g.Obtainable) :
    ((∃ a, g.toAutomaton = .ok a) ↔ ∀ lhs, ∀ rhs ∈ g.alternatives lhs, g.RightLinear rhs) ∧
    (∀ cause, g.toAutomaton = .error cause ↔ ∃ before lhs rhs after,
      g.rules = before ++ (lhs, rhs) :: after ∧ (∀ rule ∈ before, g.RightLinear rule.2) ∧
        ¬g.RightLinear rhs ∧ cause = .notRightLinear (g.name lhs) (g.symbols.render rhs)) ∧
    ∀ a, g.toAutomaton = .ok a → ∀ w, a.accepts w ↔ g.Generates w := by
  have hc := hg.consistent
  refine ⟨⟨?_, fun hlinear => ?_⟩, fun cause => ⟨fun hcause => ?_, ?_⟩, fun a ha w => ?_⟩
  · rintro ⟨a, ha⟩ lhs rhs hrhs
    exact hc.rightLinear_of_toAutomaton ha hrhs
  · exact hc.exists_toAutomaton fun rule hrule => hlinear rule.1 rule.2 (mem_rules.1 hrule)
  · have hnot : ¬∀ rule ∈ g.rules, g.RightLinear rule.2 := fun hlinear => by
      obtain ⟨a, ha⟩ := hc.exists_toAutomaton hlinear
      cases hcause.symm.trans ha
    obtain ⟨before, ⟨lhs, rhs⟩, after, hrules, hbefore, hlinear⟩ := exists_first_not hnot
    have herror := hc.toAutomaton_eq_error hrules hbefore hlinear
    exact ⟨before, lhs, rhs, after, hrules, hbefore, hlinear,
      Except.error.inj (hcause.symm.trans herror)⟩
  · rintro ⟨before, lhs, rhs, after, hrules, hbefore, hlinear, rfl⟩
    exact hc.toAutomaton_eq_error hrules hbefore hlinear
  · exact accepts_toAutomaton_iff hc ha

theorem rightLinear_evenly : ((Grammar.parse "S -> a T | ε\nT -> a S | b").map fun g =>
    decide (∀ rule ∈ g.rules, g.RightLinear rule.2)) = .ok true := by
  decide +kernel

theorem toAutomaton_spec_evenly : ∃ g a, Grammar.parse "S -> a T | ε\nT -> a S | b" = .ok g ∧
    (∀ lhs, ∀ rhs ∈ g.alternatives lhs, g.RightLinear rhs) ∧ g.toAutomaton = .ok a ∧
      ∀ w, a.accepts w ↔ g.Generates w := by
  obtain ⟨g, hg, hlinear⟩ := map_eq_ok_iff.1 rightLinear_evenly
  have hlinear : ∀ lhs, ∀ rhs ∈ g.alternatives lhs, g.RightLinear rhs := fun lhs rhs hrhs =>
    of_decide_eq_true hlinear (lhs, rhs) (mem_rules.2 hrhs)
  obtain ⟨hiff, -, haccepts⟩ := toAutomaton_spec (.parse hg)
  obtain ⟨a, ha⟩ := hiff.2 hlinear
  exact ⟨g, a, hg, hlinear, ha, haccepts a ha⟩

end Grammar
end Chomsky
