import Chomsky.Automaton.Equivalence

/-! # Partition refinement

The reachable states of a deterministic automaton, and a sink that completes it, are divided
into blocks until states in one block accept the same words. Every block, in the order of the
blocks, splits the others by each symbol once; of the two parts of a block the larger one
keeps its place and the smaller one is added at the end.
-/

namespace Chomsky.Automaton

/-- Blocks of states, and how many pairs of a block and a symbol have split the others. -/
structure Refinement where
  blocks : Array StateSet
  done : Nat := 0

variable (a : Automaton)

/-- The state that takes the place of missing targets. -/
def sink : StateId := a.states.size

def completed (targets : TargetMap) (q : StateId) (i : SymbolIndex) : StateId :=
  if q = a.sink then a.sink else ((targets q i).least?).getD a.sink

def target : StateId → SymbolIndex → StateId := a.completed a.targets

def completedTable : Array (Array StateId) :=
  tabulate (a.sink + 1) a.alphabet.size (a.completed (a.storedTargets a.targetTable))

theorem stored_completedTable : stored a.completedTable a.target = a.target := by
  rw [completedTable, storedTargets_eq, ← target, stored_tabulate]

def completedStates : StateSet := a.reachableStates.insert a.sink

def sources : TargetMap := fun r i => a.completedStates.filter fun q => a.target q i = r

def fibers (f : StateId → StateId) (n : Nat) (states : List StateId) : Array StateSet :=
  states.foldr (fun q sets => sets.modify (f q) (·.insert q)) (Array.replicate n ∅)

def sourceTable : Array (Array StateSet) :=
  let target := stored a.completedTable a.target
  let states := a.completedStates.toList
  tabulateRow a.alphabet.size fun i => fibers (target · i) (a.sink + 1) states

def storedSources (table : Array (Array StateSet)) : TargetMap := fun r i =>
  stored table (fun i r => a.sources r i) i r

/-- The parts of a block inside and outside of a class: the one that keeps the place of the
block, and the other one if both have members. -/
def splitBlock (cls block : StateSet) : StateSet × Option StateSet :=
  let inside := block ∩ cls
  if inside.isEmpty then (block, none)
  else
    let outside := block \ cls
    if outside.isEmpty then (block, none)
    else if inside.size ≤ outside.size then (outside, some inside)
    else (inside, some outside)

def splitBlocks (cls : StateSet) (blocks : Array StateSet) : Array StateSet :=
  if cls.isEmpty then blocks
  else
    let parts := blocks.map (splitBlock cls)
    parts.map Prod.fst ++ parts.filterMap Prod.snd

namespace Refinement

def initial (a : Automaton) : Refinement :=
  let states := a.completedStates
  { blocks := #[states ∩ a.accept, states \ a.accept].filter (!·.isEmpty) }

variable (sources : TargetMap) (symbols : Nat)

def unfinished (r : Refinement) : Bool := r.done < r.blocks.size * symbols

/-- Split all blocks by the sources of the next block on the next symbol. -/
def step (r : Refinement) : Refinement :=
  let splitter := r.blocks.getD (r.done / symbols) ∅
  { blocks := splitBlocks (sources.move splitter (r.done % symbols)) r.blocks
    done := r.done + 1 }

def run : Nat → Refinement → Refinement
  | 0, r => r
  | fuel + 1, r => if r.unfinished symbols then run fuel (step sources symbols r) else r

end Refinement

/-- The blocks in the end. There are no more of them than states, and each splits the others
once by each symbol. -/
def refinedBlocks : List StateSet :=
  (Refinement.run (a.storedSources a.sourceTable) a.alphabet.size
    (a.completedStates.size * a.alphabet.size) (.initial a)).blocks.toList

variable {a} {q r : StateId} {i : SymbolIndex}

theorem mem_sources : q ∈ a.sources r i ↔ q ∈ a.completedStates ∧ a.target q i = r := by
  simp [sources]

theorem mem_fibers {f : StateId → StateId} {n : Nat} {states : List StateId} {s : StateSet}
    (h : (fibers f n states)[r]? = some s) : q ∈ s ↔ q ∈ states ∧ f q = r := by
  induction states generalizing s with
  | nil =>
    have h : n > r ∧ s = ∅ := by simpa [fibers, Array.getElem?_replicate, eq_comm] using h
    simp [h.2]
  | cons p states ih =>
    have h : ((fibers f n states).modify (f p) (·.insert p))[r]? = some s := h
    rw [Array.getElem?_modify] at h
    split at h
    · next hp =>
      obtain ⟨t, ht, rfl⟩ := Option.map_eq_some_iff.1 h
      rw [StateSet.mem_insert, ih ht, List.mem_cons]
      grind
    · next hp =>
      rw [ih h, List.mem_cons]
      grind

theorem storedSources_eq : a.storedSources a.sourceTable = a.sources := by
  funext r i
  rw [storedSources, sourceTable, stored_completedTable]
  unfold stored
  split
  · rfl
  · next row hrow =>
    cases getElem?_tabulateRow hrow
    unfold storedRow
    split
    · rfl
    · next s hs =>
      refine StateSet.ext fun q => ?_
      rw [mem_fibers hs, mem_sources, StateSet.mem_def]

theorem refinedBlocks_eq :
    a.refinedBlocks = (Refinement.run a.sources a.alphabet.size
      (a.completedStates.size * a.alphabet.size) (.initial a)).blocks.toList := by
  rw [refinedBlocks, storedSources_eq]

end Chomsky.Automaton
