import Chomsky.Automaton.Basic
import Chomsky.Data.Tabulation

/-! # Target sets in a table

The target sets of an automaton in rows by state and symbol. They are the same as those of
the transition map (`storedTargets_eq`).
-/

namespace Chomsky.Automaton
variable (a : Automaton)

def targetTable : Array (Array StateSet) := tabulate a.states.size a.alphabet.size a.targets

def storedTargets (table : Array (Array StateSet)) : TargetMap := stored table a.targets

/-- Target sets do not depend on how the transitions are stored. -/
theorem storedTargets_eq : a.storedTargets a.targetTable = a.targets := by
  rw [storedTargets, targetTable, stored_tabulate]

end Chomsky.Automaton
