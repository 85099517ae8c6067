import Chomsky.Automaton.Lookup
import Chomsky.Data.Discovery

/-! # Determinization

The subset construction: the nonempty sets of active states become states, numbered in the
order of discovery and named by the names of their members. It fails at the first set whose
name is taken (`firstClash_of_namedSubsets`).
-/

namespace Chomsky.Automaton
variable (a : Automaton)

def subsetName (s : StateSet) : String :=
  String.join ((s.toList.map a.stateName).mergeSort fun x y => x ≤ y)

/-- The names of the members between braces. -/
def describe (s : StateSet) : String :=
  "\x7b" ++ ", ".intercalate (s.toList.map a.stateName) ++ "\x7d"

def subsetSuccessors (targets : TargetMap) (s : StateSet) : List StateSet :=
  (a.symbols.map (targets.move s)).filter (!·.isEmpty)

/-- The sets of active states that words lead to, in the order of discovery. There are at
most as many as sets of states. -/
def subsets : List StateSet :=
  explore (a.subsetSuccessors a.targets) (Nat.pow 2 a.states.size + 1) [.singleton a.start]
    [.singleton a.start]

/-- The same sets, each with its number, found by their names. If two sets have one name, the
outcome is the first set whose name an earlier one has, after that one. -/
def namedSubsets (targets : TargetMap) :
    Except (StateSet × StateSet) (Numbering a.subsetName) :=
  discover (a.subsetSuccessors targets) (Nat.pow 2 a.states.size + 1)
    (.ofList _ [.singleton a.start]) 0

def subsetNames (sets : Numbering a.subsetName) : OrderedSet String :=
  ⟨sets.map a.subsetName fun _ => rfl⟩

def subsetTransitions (targets : TargetMap) (sets : Numbering a.subsetName) : Transitions :=
  .ofRows sets.toList a.alphabet.size fun s i =>
    (sets.idxOf? (targets.move s i)).map StateSet.singleton

/-- A deterministic automaton for the same language. It fails if two sets have one name. -/
def subsetConstruction : Except LanguageError Automaton :=
  let targets := a.storedTargets a.targetTable
  match a.namedSubsets targets with
  | .error (first, second) =>
    .error (.nameCollision (a.describe first) (a.describe second) (a.subsetName second))
  | .ok sets => .ok {
      states := a.subsetNames sets
      alphabet := a.alphabet
      transitions := a.subsetTransitions targets sets
      start := 0
      accept := .ofList <|
        (sets.toList.zipIdx.filter fun (s, _) => s.intersects a.accept).map Prod.snd }

def toDeterministic : Except LanguageError Automaton :=
  if a.isDeterministic then .ok a else a.subsetConstruction

variable {a}

theorem toList_of_namedSubsets {sets : Numbering a.subsetName}
    (h : a.namedSubsets a.targets = .ok sets) : sets.toList = a.subsets := by
  simpa [subsets] using discover_eq_ok h

theorem firstClash_of_namedSubsets {s t : StateSet}
    (h : a.namedSubsets a.targets = .error (s, t)) : FirstClash a.subsetName a.subsets s t := by
  simpa [subsets] using discover_eq_error h

end Chomsky.Automaton
