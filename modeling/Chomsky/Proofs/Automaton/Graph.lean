import Chomsky.Automaton.Graph
import Chomsky.Proofs.Automaton.History
import Chomsky.Proofs.Data.Assembly
import Chomsky.Proofs.Obtainable

/-! # Graphs and back

A graph shows each transition as an edge between names. Where every name is in its set, the calls
that declare and add what a graph shows find the numbers again (`resolveEnds_known`), and edges in
the order of their keys regroup to the target sets from which they came
(`Transitions.foldl_add_entries`).
-/

namespace Chomsky

namespace AutomatonDefinition

variable {closed : Bool} {names alphabet : OrderedSet String} {name : String} {i : Nat}
  {is : List Nat} {edges : List (StateId × SymbolIndex × StateId)} {ts : Transitions}
  {f g : Nat → String}

theorem resolve_known (h : names.get? i = some name) :
    resolve closed names name = .ok (i, names) := by
  rw [resolve, OrderedSet.get?_idxOf?_iff.2 h]

theorem resolveAll_known (h : ∀ i ∈ is, names.get? i = some (f i)) :
    resolveAll closed names (is.map f) = .ok (is, names) := by
  induction is with
  | nil => rfl
  | cons i is ih =>
    obtain ⟨hi, h⟩ := List.forall_mem_cons.1 h
    rw [List.map_cons, resolveAll, resolve_known hi, ok_bind]
    dsimp only
    rw [ih h]
    rfl

theorem resolveEnds_known (h : ∀ edge ∈ edges, names.get? edge.1 = some (f edge.1) ∧
    names.get? edge.2.2 = some (f edge.2.2)) :
    resolveEnds closed names (edges.map fun (q, i, r) => (f q, g i, f r)) =
      .ok (edges.map fun (q, i, r) => (q, g i, r), names) := by
  induction edges with
  | nil => rfl
  | cons edge edges ih =>
    obtain ⟨⟨hq, hr⟩, h⟩ := List.forall_mem_cons.1 h
    rw [List.map_cons, resolveEnds, resolve_known hq, ok_bind]
    dsimp only
    rw [resolve_known hr, ok_bind]
    dsimp only
    rw [ih h]
    rfl

theorem resolveSymbols_known (h : ∀ edge ∈ edges, alphabet.get? edge.2.1 = some (g edge.2.1)) :
    resolveSymbols closed alphabet ts (edges.map fun (q, i, r) => (q, g i, r)) =
      .ok (edges.foldl (fun ts (q, i, r) => ts.add q i r) ts, alphabet) := by
  induction edges generalizing ts with
  | nil => rfl
  | cons edge edges ih =>
    obtain ⟨hi, h⟩ := List.forall_mem_cons.1 h
    rw [List.map_cons, resolveSymbols, resolve_known hi, ok_bind]
    exact ih h

end AutomatonDefinition

theorem Transitions.foldl_add_entries {ts : Transitions}
    (h : ∀ k s, ts.get? k = some s → ∃ r, r ∈ s) :
    (ts.entries.flatMap fun ((q, i), targets) => targets.toList.map fun r => (q, i, r)).foldl
      (fun ts (q, i, r) => Transitions.add ts q i r) ∅ = ts := by
  have hedges :
      (ts.entries.flatMap fun ((q, i), targets) => targets.toList.map fun r => (q, i, r)) =
        ((ts.entries.map fun (k, targets) => (k, targets.toList)).flatMap
          fun (k, rs) => rs.map fun r => (k, r)).map fun (k, r) => (k.1, k.2, r) := by
    rw [List.flatMap_map, List.map_flatMap]
    simp only [List.map_map, Function.comp_def]
  rw [hedges, List.foldl_map]
  refine OrderedMap.foldl_upsert_parts (f := StateSet.insert) (e := ∅) ts fun k s hs => ?_
  exact ⟨List.ne_nil_of_mem (h k s hs).choose_spec, StateSet.foldl_insert_toList s⟩

open AutomatonDefinition

namespace AutomatonGraph

/-- The calls that declare the states of a graph and an alphabet, and add what the graph shows. -/
def calls (graph : AutomatonGraph) (alphabet : List String) : List Call :=
  .states graph.states :: .alphabet alphabet :: .start graph.start :: .accept graph.accept ::
    graph.edges.map fun edge => .transition edge.source edge.label edge.destination

theorem foldl_call_transitions (edges : List GraphEdge) (d : AutomatonDefinition) :
    (edges.map fun edge => Call.transition edge.source edge.label edge.destination).foldl call d =
      { d with transitions := d.transitions ++
          edges.map fun edge => (edge.source, edge.label, edge.destination) } := by
  induction edges generalizing d with
  | nil => rw [List.map_nil, List.map_nil, List.append_nil]; rfl
  | cons edge edges ih =>
    rw [List.map_cons, List.foldl_cons, ih, List.map_cons, List.append_cons]
    rfl

theorem ofCalls_calls (graph : AutomatonGraph) (alphabet : List String) :
    ofCalls (graph.calls alphabet) = graph.toDefinition alphabet :=
  foldl_call_transitions graph.edges _

end AutomatonGraph

namespace Automaton

variable {a : Automaton}

theorem WellFormed.build_toDefinition (h : a.WellFormed) :
    (a.toGraph.toDefinition a.alphabet.toList).build = .ok a := by
  have hstart : resolve true a.states a.startName = .ok (a.start, a.states) :=
    resolve_known (stateName?_eq h.start_lt)
  have haccept : resolveAll true a.states (a.accept.toList.map a.stateName) =
      .ok (a.accept.toList, a.states) :=
    resolveAll_known fun q hq => stateName?_eq (h.accept_lt q hq)
  have hends : resolveEnds true a.states
      (a.edges.map fun (q, i, r) => (a.stateName q, a.symbolName i, a.stateName r)) =
        .ok (a.edges.map fun (q, i, r) => (q, a.symbolName i, r), a.states) :=
    resolveEnds_known fun edge hedge =>
      have hlt := h.lt_of_mem_edges edge hedge
      ⟨stateName?_eq hlt.1, stateName?_eq hlt.2.2⟩
  have hsymbols : resolveSymbols true a.alphabet ∅
      (a.edges.map fun (q, i, r) => (q, a.symbolName i, r)) = .ok (a.transitions, a.alphabet) := by
    rw [resolveSymbols_known fun edge hedge => symbolName?_eq (h.lt_of_mem_edges edge hedge).2.1,
      edges, Transitions.foldl_add_entries fun k s => h.transitions.nonempty]
  have htransitions : (a.toGraph.toDefinition a.alphabet.toList).transitions =
      a.edges.map fun (q, i, r) => (a.stateName q, a.symbolName i, a.stateName r) :=
    List.map_map
  simp only [build, AutomatonGraph.toDefinition, toGraph, Option.isSome_some, Option.getD_some,
    OrderedSet.ofList_toList] at htransitions ⊢
  rw [htransitions, hstart, ok_bind]
  dsimp only
  rw [haccept, ok_bind]
  dsimp only
  rw [hends, ok_bind]
  dsimp only
  rw [hsymbols, ok_bind, StateSet.ofList_toList]
  rfl

/-- Declaring what a graph shows and adding its edges gives back the automaton that was drawn. -/
theorem build_ofCalls_toGraph (h : a.Obtainable) :
    (ofCalls (a.toGraph.calls a.alphabet.toList)).build = .ok a := by
  rw [AutomatonGraph.ofCalls_calls, h.wellFormed.build_toDefinition]

/-- Two transitions from one state on one symbol, and another one between them. -/
def interleaved : AutomatonDefinition where
  transitions := [("p", "a", "q"), ("q", "b", "p"), ("p", "a", "p")]
  start := "p"
  accept := ["q"]

theorem edges_toGraph_interleaved : interleaved.build.map (fun a => a.toGraph.edges) =
    .ok [⟨"p", "p", "a"⟩, ⟨"p", "q", "a"⟩, ⟨"q", "p", "b"⟩] := by
  decide +kernel

theorem build_ofCalls_toGraph_interleaved : ∃ a, interleaved.build = .ok a ∧
    a.toGraph.edges = [⟨"p", "p", "a"⟩, ⟨"p", "q", "a"⟩, ⟨"q", "p", "b"⟩] ∧ a.Obtainable ∧
      (ofCalls (a.toGraph.calls a.alphabet.toList)).build = .ok a := by
  obtain ⟨a, ha, hedges⟩ := map_eq_ok_iff.1 edges_toGraph_interleaved
  exact ⟨a, ha, hedges, .build ha, build_ofCalls_toGraph (.build ha)⟩

end Automaton
end Chomsky
