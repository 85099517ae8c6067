import Chomsky.Automaton.Basic

/-! # Definitions of automata

An automaton given by names, call by call. States and symbols come from the transitions unless they
are declared; a declared set is closed.
-/

namespace Chomsky

/-- An automaton before its names are numbered. -/
structure AutomatonDefinition where
  states : Option (List String) := none
  alphabet : Option (List String) := none
  transitions : List (String × String × String) := []
  start : Option String := none
  accept : List String := []

namespace AutomatonDefinition

def addTransitions (d : AutomatonDefinition) (source symbol : String) (targets : List String) :
    AutomatonDefinition :=
  { d with transitions := d.transitions ++ targets.map fun target => (source, symbol, target) }

/-- One call by which a definition is put together. -/
inductive Call where
  | states (names : List String)
  | alphabet (symbols : List String)
  | start (name : String)
  | accept (names : List String)
  | transition (source symbol target : String)
  | transitions (source symbol : String) (targets : List String)

/-- Declared sets and the start state take the place of earlier ones, while accepting states and
transitions are added. -/
def call (d : AutomatonDefinition) : Call → AutomatonDefinition
  | .states names => { d with states := some names }
  | .alphabet symbols => { d with alphabet := some symbols }
  | .start name => { d with start := some name }
  | .accept names => { d with accept := d.accept ++ names }
  | .transition source symbol target => d.addTransitions source symbol [target]
  | .transitions source symbol targets => d.addTransitions source symbol targets

def ofCalls (calls : List Call) : AutomatonDefinition := calls.foldl call {}

/-- The number of a name in a set, to which it is added unless the set is closed. -/
def resolve (closed : Bool) (names : OrderedSet String) (name : String) :
    Except LanguageError (Nat × OrderedSet String) :=
  match names.idxOf? name with
  | some i => .ok (i, names)
  | none => if closed then .error (.notDeclared name) else .ok (names.size, names.insert name)

def resolveAll (closed : Bool) (names : OrderedSet String) :
    List String → Except LanguageError (List Nat × OrderedSet String)
  | [] => .ok ([], names)
  | name :: rest => do
    let (i, names) ← resolve closed names name
    let (is, names) ← resolveAll closed names rest
    return (i :: is, names)

def resolveEnds (closed : Bool) (states : OrderedSet String) :
    List (String × String × String) →
      Except LanguageError (List (StateId × String × StateId) × OrderedSet String)
  | [] => .ok ([], states)
  | (source, symbol, target) :: rest => do
    let (q, states) ← resolve closed states source
    let (r, states) ← resolve closed states target
    let (edges, states) ← resolveEnds closed states rest
    return ((q, symbol, r) :: edges, states)

def resolveSymbols (closed : Bool) (alphabet : OrderedSet String) (ts : Transitions) :
    List (StateId × String × StateId) → Except LanguageError (Transitions × OrderedSet String)
  | [] => .ok (ts, alphabet)
  | (q, symbol, r) :: rest => do
    let (i, alphabet) ← resolve closed alphabet symbol
    resolveSymbols closed alphabet (ts.add q i r) rest

/-- Number all names and make the automaton. -/
def build (d : AutomatonDefinition) : Except LanguageError Automaton :=
  match d.start with
  | none => .error .noStart
  | some startName => do
    let closed := d.states.isSome
    let (start, states) ← resolve closed (.ofList (d.states.getD [])) startName
    let (accept, states) ← resolveAll closed states d.accept
    let (edges, states) ← resolveEnds closed states d.transitions
    let (transitions, alphabet) ←
      resolveSymbols d.alphabet.isSome (.ofList (d.alphabet.getD [])) ∅ edges
    return { states, alphabet, transitions, start, accept := .ofList accept }

end AutomatonDefinition
end Chomsky
