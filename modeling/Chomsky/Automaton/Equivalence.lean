import Chomsky.Automaton.Determinization

/-! # Emptiness and equivalence

An automaton accepts no word if no accepting state is reachable. Two automata accept the same
words if no reachable pair of states of their deterministic forms disagrees.
-/

namespace Chomsky.Automaton
variable (a b : Automaton)

def successors (targets : TargetMap) (q : StateId) : List StateId :=
  a.symbols.flatMap fun i => (targets q i).toList

def reachableStates : StateSet :=
  let targets := a.storedTargets a.targetTable
  .ofList <| search id (a.successors targets) (a.states.size + 1) a.start

def isEmpty : Bool := (a.reachableStates ∩ a.accept).isEmpty

/-- The target of a state of a deterministic automaton on a named symbol. No state stands for
the one from which nothing is accepted. -/
def step? (targets : TargetMap) (q : Option StateId) (x : String) : Option StateId := do
  let i ← a.symbolIndex? x
  (targets (← q) i).least?

def acceptsAt (q : Option StateId) : Bool := q.any (· ∈ a.accept)

/-- A state of each of two automata, or none. -/
abbrev StatePair := Option StateId × Option StateId

def pairSuccessors (targets targets' : TargetMap) (alphabet : List String) (pair : StatePair) :
    List StatePair :=
  (alphabet.map fun x => (a.step? targets pair.1 x, b.step? targets' pair.2 x)).filter
    (· != (none, none))

def reachablePairs : List StatePair :=
  let alphabet := (OrderedSet.ofList (a.alphabet.toList ++ b.alphabet.toList)).toList
  let targets := a.storedTargets a.targetTable
  let targets' := b.storedTargets b.targetTable
  search id (a.pairSuccessors b targets targets' alphabet)
    ((a.states.size + 1) * (b.states.size + 1) + 1) (some a.start, some b.start)

/-- Whether two deterministic automata accept the same words. -/
def agreesOnWords : Bool :=
  (a.reachablePairs b).all fun (p, q) => a.acceptsAt p == b.acceptsAt q

/-- Whether two automata accept the same words. It fails if one of them cannot be
determinized. -/
def equivalent : Except LanguageError Bool := do
  let a ← a.toDeterministic
  let b ← b.toDeterministic
  return a.agreesOnWords b

theorem reachableStates_eq :
    a.reachableStates = .ofList
      (explore (a.successors a.targets) (a.states.size + 1) [a.start] [a.start]) := by
  rw [reachableStates, storedTargets_eq, search_eq_explore]
  exact fun _ _ h => h

theorem reachablePairs_eq :
    a.reachablePairs b =
      explore (a.pairSuccessors b a.targets b.targets
          (OrderedSet.ofList (a.alphabet.toList ++ b.alphabet.toList)).toList)
        ((a.states.size + 1) * (b.states.size + 1) + 1)
        [(some a.start, some b.start)] [(some a.start, some b.start)] := by
  rw [reachablePairs, storedTargets_eq, storedTargets_eq, search_eq_explore]
  exact fun _ _ h => h

end Chomsky.Automaton
