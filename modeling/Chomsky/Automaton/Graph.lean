import Chomsky.Automaton.Definition

/-! # Graphs

An automaton as a graph of named states and labelled edges, and the definition that a graph
gives back.
-/

namespace Chomsky

structure GraphEdge where
  source : String
  destination : String
  label : String
deriving DecidableEq

/-- The states of an automaton and the edges between them, by name. -/
structure AutomatonGraph where
  states : List String
  start : String
  accept : List String
  edges : List GraphEdge
deriving DecidableEq

def Automaton.toGraph (a : Automaton) : AutomatonGraph where
  states := a.states.toList
  start := a.startName
  accept := a.accept.toList.map a.stateName
  edges := a.edges.map fun (q, i, r) => ⟨a.stateName q, a.stateName r, a.symbolName i⟩

def AutomatonGraph.toDefinition (graph : AutomatonGraph) (alphabet : List String) :
    AutomatonDefinition where
  states := some graph.states
  alphabet := some alphabet
  transitions := graph.edges.map fun edge => (edge.source, edge.label, edge.destination)
  start := some graph.start
  accept := graph.accept

end Chomsky
