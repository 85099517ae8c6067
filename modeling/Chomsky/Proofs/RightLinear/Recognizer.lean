import Chomsky.Proofs.Automaton.Definition
import Chomsky.Proofs.Grammar.Consistent
import Chomsky.RightLinear.Recognizer

/-! # Automata of right-linear grammars are well formed

The nonterminals of a consistent grammar have distinct names, and the extra state has another one,
so that states have the numbers of nonterminals and the next one.
-/

namespace Chomsky

namespace Grammar

variable {g : Grammar} {a : Automaton}

theorem idxOf?_lt {s : OrderedSet SymbolId} {x : SymbolId} {i : Nat} (h : s.idxOf? x = some i) :
    i < s.size := OrderedSet.lt_size_of_get? (OrderedSet.get?_idxOf?_iff.1 h)

theorem Consistent.toList_stateNames (hg : g.Consistent) :
    g.stateNames.toList = g.nonterminals.toList.map g.name := by
  apply OrderedSet.toList_ofList_of_nodup
  exact SymbolTable.nodup_map_name g.nonterminals.nodup fun s hs =>
    SymbolTable.lt_size_of_isNonterminal (hg.nonterminal s hs)

theorem sentinelName_not_mem : g.sentinelName ∉ g.stateNames := by
  have hfree : ¬decide (quoted acceptName (leastUnused (fun s => decide (s ∈ g.stateNames))
      g.stateNames.size (quoted acceptName) 0) ∈ g.stateNames) :=
    not_used_leastUnused (quoted_injective acceptName)
      (fun s hs => OrderedSet.mem_def.1 (of_decide_eq_true hs))
      (Nat.le_of_eq OrderedSet.length_toList) 0
  rw [← withQuotes_eq, decide_eq_true_eq] at hfree
  exact hfree

theorem sentinelName_of_not_mem (h : acceptName ∉ g.stateNames) : g.sentinelName = acceptName := by
  rw [sentinelName]
  cases g.stateNames.size with
  | zero => rfl
  | succ n => exact if_neg (by simpa using h)

theorem Consistent.size_states (hg : g.Consistent) :
    (g.stateNames.insert g.sentinelName).size = g.nonterminals.size + 1 := by
  rw [← OrderedSet.length_toList, OrderedSet.toList_insert, if_neg sentinelName_not_mem,
    List.length_append, hg.toList_stateNames, List.length_map, OrderedSet.length_toList,
    List.length_singleton]

theorem Consistent.size_alphabet (hg : g.Consistent) :
    (OrderedSet.ofList (g.terminals.toList.map g.name)).size = g.terminals.size := by
  rw [← OrderedSet.length_toList, OrderedSet.toList_ofList_of_nodup, List.length_map,
    OrderedSet.length_toList]
  exact SymbolTable.nodup_map_name g.terminals.nodup fun s hs =>
    SymbolTable.lt_size_of_isTerminal (hg.terminal s hs)

theorem stateOf_lt {s : SymbolId} {q : StateId} (h : g.stateOf s = .ok q) :
    q < g.nonterminals.size := by
  unfold stateOf at h
  split at h
  · next hq =>
    cases h
    exact idxOf?_lt hq
  · cases h

theorem transition?_lt {rhs : Form} {i : SymbolIndex} {r : StateId}
    (h : g.transition? rhs = some (i, r)) : i < g.terminals.size ∧ r < g.nonterminals.size + 1 := by
  unfold transition? at h
  split at h
  · obtain ⟨j, hj, heq⟩ := Option.map_eq_some_iff.1 h
    obtain ⟨rfl, rfl⟩ := Prod.mk.inj heq
    exact ⟨idxOf?_lt hj, Nat.lt_succ_self _⟩
  · obtain ⟨j, hj, h⟩ := Option.bind_eq_some_iff.1 h
    obtain ⟨q, hq, h⟩ := Option.bind_eq_some_iff.1 h
    obtain ⟨rfl, rfl⟩ := Prod.mk.inj (Option.some.inj h)
    exact ⟨idxOf?_lt hj, Nat.lt_succ_of_lt (idxOf?_lt hq)⟩
  · cases h

def Fits (g : Grammar) (state : Transitions × StateSet) : Prop :=
  state.1.Within (g.nonterminals.size + 1) g.terminals.size ∧
    ∀ q ∈ state.2, q < g.nonterminals.size + 1

theorem Fits.addProduction {state state' : Transitions × StateSet} {rule : SymbolId × Form}
    (h : g.Fits state) (hadd : g.addProduction state rule = .ok state') : g.Fits state' := by
  obtain ⟨source, hsource, hadd⟩ := bind_eq_ok_iff.1 hadd
  have hlt := Nat.lt_succ_of_lt (stateOf_lt hsource)
  split at hadd
  · cases pure_eq_ok_iff.1 hadd
    refine ⟨h.1, fun q hq => ?_⟩
    rcases StateSet.mem_insert.1 hq with rfl | hq
    · exact hlt
    · exact h.2 q hq
  · split at hadd
    · next htransition =>
      cases pure_eq_ok_iff.1 hadd
      obtain ⟨hi, hr⟩ := transition?_lt htransition
      exact ⟨h.1.add hlt hi hr, h.2⟩
    · cases hadd

theorem Fits.addProductions {rules : List (SymbolId × Form)} {state state' : Transitions × StateSet}
    (h : g.Fits state) (hadd : rules.foldlM g.addProduction state = .ok state') :
    g.Fits state' := by
  induction rules generalizing state with
  | nil =>
    cases hadd
    exact h
  | cons rule rules ih =>
    rw [List.foldlM_cons] at hadd
    obtain ⟨state₁, hrule, hadd⟩ := bind_eq_ok_iff.1 hadd
    exact ih (h.addProduction hrule) hadd

theorem toAutomaton_eq_ok (h : g.toAutomaton = .ok a) :
    (∃ state, g.rules.foldlM g.addProduction (∅, .singleton g.sentinel) = .ok state ∧
      a.transitions = state.1 ∧ a.accept = state.2) ∧
    g.stateOf g.start = .ok a.start ∧ a.states = g.stateNames.insert g.sentinelName ∧
      a.alphabet = .ofList (g.terminals.toList.map g.name) := by
  obtain ⟨state, hstate, h⟩ := bind_eq_ok_iff.1 h
  obtain ⟨start, hstart, h⟩ := bind_eq_ok_iff.1 h
  cases pure_eq_ok_iff.1 h
  exact ⟨⟨state, hstate, rfl, rfl⟩, hstart, rfl, rfl⟩

theorem Consistent.wellFormed_toAutomaton (hg : g.Consistent) (h : g.toAutomaton = .ok a) :
    a.WellFormed := by
  obtain ⟨⟨state, hstate, htransitions, haccept⟩, hstart, hstates, halphabet⟩ := toAutomaton_eq_ok h
  have hinitial : g.Fits (∅, .singleton g.sentinel) := by
    refine ⟨Transitions.within_empty, fun q hq => ?_⟩
    rw [StateSet.mem_singleton.1 hq]
    exact Nat.lt_succ_self _
  have hfits := hinitial.addProductions hstate
  have hsize : a.states.size = g.nonterminals.size + 1 := hstates ▸ hg.size_states
  have hsize' : a.alphabet.size = g.terminals.size := halphabet ▸ hg.size_alphabet
  constructor
  · rw [hsize]
    exact Nat.lt_succ_of_lt (stateOf_lt hstart)
  · rw [hsize, haccept]
    exact hfits.2
  · rw [hsize, hsize', htransitions]
    exact hfits.1

end Grammar
end Chomsky
