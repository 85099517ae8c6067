import Chomsky.Data.OrderedMap
import Chomsky.Data.OrderedSet
import Chomsky.Error
import Chomsky.StateSet

/-! # Finite automata

States and alphabet symbols have names and are known by their positions. An automaton may be
nondeterministic; it has no empty moves.
-/

namespace Chomsky

abbrev SymbolIndex := Nat

/-- The target sets of the pairs of a state and a symbol that have one. -/
abbrev Transitions := OrderedMap (StateId × SymbolIndex) StateSet

abbrev TargetMap := StateId → SymbolIndex → StateSet

def TargetMap.move (targets : TargetMap) (s : StateSet) (i : SymbolIndex) : StateSet :=
  s.toList.foldl (fun reached q => reached ∪ targets q i) ∅

def Transitions.add (ts : Transitions) (source : StateId) (symbol : SymbolIndex)
    (target : StateId) : Transitions :=
  OrderedMap.upsert ts (source, symbol) fun targets => (targets.getD ∅).insert target

/-- A finite automaton. -/
structure Automaton where
  states : OrderedSet String
  alphabet : OrderedSet String
  transitions : Transitions
  start : StateId
  accept : StateSet
deriving DecidableEq

namespace Automaton
variable (a : Automaton)

def stateId? (name : String) : Option StateId := a.states.idxOf? name

def symbolIndex? (name : String) : Option SymbolIndex := a.alphabet.idxOf? name

def stateName? (q : StateId) : Option String := a.states.get? q

def symbolName? (i : SymbolIndex) : Option String := a.alphabet.get? i

def stateName (q : StateId) : String := (a.stateName? q).getD ""

def symbolName (i : SymbolIndex) : String := (a.symbolName? i).getD ""

def startName : String := a.stateName a.start

def symbols : List SymbolIndex := List.range a.alphabet.size

def targets : TargetMap := fun q i => (a.transitions.get? (q, i)).getD ∅

def move (s : StateSet) (i : SymbolIndex) : StateSet := a.targets.move s i

/-- All transitions, in the order of their sources and symbols. -/
def edges : List (StateId × SymbolIndex × StateId) :=
  a.transitions.entries.flatMap fun ((q, i), targets) => targets.toList.map fun r => (q, i, r)

def isDeterministic : Bool := a.transitions.values.all fun targets => targets.size ≤ 1

def isAccepting (name : String) : Bool :=
  match a.stateId? name with
  | none => false
  | some q => q ∈ a.accept

def targetsNamed (state symbol : String) : List String :=
  match a.stateId? state, a.symbolIndex? symbol with
  | some q, some i => (a.targets q i).toList.map a.stateName
  | _, _ => []

/-- Whether two automata agree by number, without regard to the order in which states,
symbols and transitions were added. -/
def agrees (b : Automaton) : Bool :=
  a.states.sameMembers b.states && a.alphabet.sameMembers b.alphabet &&
    a.transitions.sameEntries b.transitions && a.start == b.start && a.accept == b.accept

variable {a} {s : StateSet} {q : StateId} {i : SymbolIndex}

theorem mem_foldl_union {f : StateId → StateSet} {l : List StateId} {s : StateSet} :
    q ∈ l.foldl (fun reached r => reached ∪ f r) s ↔ q ∈ s ∨ ∃ r ∈ l, q ∈ f r := by
  induction l generalizing s with
  | nil => simp
  | cons r l ih => simp [ih, or_assoc]

theorem mem_move : q ∈ a.move s i ↔ ∃ r ∈ s, q ∈ a.targets r i :=
  mem_foldl_union.trans ⟨fun h => h.resolve_left StateSet.not_mem_empty, Or.inr⟩

end Automaton
end Chomsky
