import Chomsky.Automaton.Refinement

/-! # Minimal automata

The blocks of the refinement become the states of the least deterministic automaton. The
block of the sink is left out, unless it holds the start state.
-/

namespace Chomsky.Automaton
variable (a : Automaton)

def keptBlocks : List StateSet :=
  (a.refinedBlocks.mergeSort fun b c => b.least?.getD 0 ≤ c.least?.getD 0).filter
    fun block => a.sink ∉ block || a.start ∈ block

def properMembers (block : StateSet) : List StateId := block.toList.filter (· != a.sink)

/-- The least name of the members of a block. -/
def blockName (block : StateSet) : String :=
  (((a.properMembers block).map a.stateName).mergeSort fun x y => x ≤ y).headD a.startName

def blockOf? (blocks : List StateSet) (q : StateId) : Option Nat :=
  blocks.findIdx? fun block => q ∈ block && a.sink ∉ block

/-- The transitions between numbered blocks. The least member of a block speaks for it; what
leads into the block of the sink is left out. -/
def blockTransitions (target : StateId → SymbolIndex → StateId)
    (blockOf? : StateId → Option Nat) (blocks : List StateSet) : Transitions :=
  .ofRows blocks a.alphabet.size fun block i =>
    match a.properMembers block with
    | [] => none
    | q :: _ => (blockOf? (target q i)).map StateSet.singleton

/-- The least automaton for the language of a deterministic one. -/
def merged : Automaton :=
  let blocks := a.keptBlocks
  let numbers := tabulateRow (a.sink + 1) (a.blockOf? blocks)
  { states := .ofList (blocks.map a.blockName)
    alphabet := a.alphabet
    transitions := a.blockTransitions (stored a.completedTable a.target)
      (storedRow numbers (a.blockOf? blocks)) blocks
    start := (blocks.findIdx? (a.start ∈ ·)).getD 0
    accept := .ofList <|
      (blocks.zipIdx.filter fun (block, _) => block.intersects a.accept).map Prod.snd }

def minimize : Except LanguageError Automaton := a.toDeterministic.map merged

end Chomsky.Automaton
