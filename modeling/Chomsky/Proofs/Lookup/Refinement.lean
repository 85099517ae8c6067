import Chomsky.Proofs.Automaton.Refinement
import Chomsky.Proofs.Lookup.Basic

/-! # Look-ups of the refinement

The refinement with a queue of blocks and symbols by which the blocks still have to be split. It
looks up the block that splits, and replaces divided blocks at their places. The queue always holds
the pairs that have not had their turn, so that both succeed and the queue is empty in the end
(`checkedRefinedBlocks_eq`).
-/

namespace Chomsky.Automaton

/-- Blocks, and the pairs of the number of a block and a symbol that wait for their turn. -/
structure BlockQueue where
  blocks : List StateSet
  waiting : List (Nat × SymbolIndex)

/-- How a class divides a numbered block: its number, the part that keeps the place, and the part
to add. -/
def division? (cls : StateSet) : StateSet × Nat → Option (Nat × StateSet × StateSet)
  | (block, k) => (splitBlock cls block).2.map fun added => (k, (splitBlock cls block).1, added)

namespace BlockQueue

/-- Divide a block. The part that is added has to split the others by all symbols. -/
def divide (symbols : List SymbolIndex) (t : BlockQueue) :
    Nat × StateSet × StateSet → Except Fault BlockQueue
  | (k, keep, added) =>
    if k < t.blocks.length then
      .ok {
        blocks := t.blocks.set k keep ++ [added]
        waiting := t.waiting ++ symbols.map fun i => (t.blocks.length, i) }
    else .error .missing

def drain (sources : TargetMap) (symbols : List SymbolIndex) :
    Nat → BlockQueue → Except Fault (List StateSet)
  | fuel, t =>
    match t.waiting with
    | [] => .ok t.blocks
    | (k, i) :: waiting =>
      match fuel with
      | 0 => .error .unfinished
      | fuel + 1 => do
        let splitter ← demand t.blocks[k]?
        let divisions := t.blocks.zipIdx.filterMap (division? (sources.move splitter i))
        let t ← divisions.foldlM (divide symbols) { t with waiting }
        drain sources symbols fuel t

/-- The turn of a pair that waits no longer: its block splits all blocks by its symbol. -/
def turn (sources : TargetMap) (symbols : List SymbolIndex) (t : BlockQueue) :
    Nat × SymbolIndex → Except Fault BlockQueue
  | (k, i) => do
    let splitter ← demand t.blocks[k]?
    (t.blocks.zipIdx.filterMap (division? (sources.move splitter i))).foldlM (divide symbols) t

def initial (a : Automaton) : BlockQueue where
  blocks := (Refinement.initial a).blocks.toList
  waiting := (List.range (Refinement.initial a).blocks.size).flatMap fun k =>
    a.symbols.map fun i => (k, i)

end BlockQueue

def checkedRefinedBlocks (a : Automaton) : Except Fault (List StateSet) :=
  BlockQueue.drain a.sources a.symbols (a.completedStates.size * a.alphabet.size)
    (BlockQueue.initial a)

variable {a : Automaton} {cls : StateSet} {n done k i : Nat}

def turns (blocks n : Nat) : List (Nat × SymbolIndex) :=
  (List.range (blocks * n)).map fun m => (m / n, m % n)

theorem length_turns (blocks : Nat) : (turns blocks n).length = blocks * n := by
  rw [turns, List.length_map, List.length_range]

theorem turns_succ (blocks : Nat) : turns (blocks + 1) n =
    turns blocks n ++ (List.range n).map fun i => (blocks, i) := by
  rw [turns, Nat.succ_mul, List.range_add, List.map_append, List.map_map, turns]
  congr 1
  refine List.map_congr_left fun i hi => ?_
  obtain ⟨hdiv, hmod⟩ := Refinement.place_div_mod (k := blocks) (List.mem_range.1 hi)
  rw [Function.comp_apply, hdiv, hmod]

theorem flatMap_range_eq_turns (blocks : Nat) : ((List.range blocks).flatMap fun k =>
    (List.range n).map fun i => (k, i)) = turns blocks n := by
  induction blocks with
  | zero => rw [turns, Nat.zero_mul, List.range_zero, List.flatMap_nil, List.map_nil]
  | succ blocks ih =>
    rw [List.range_succ, List.flatMap_append, ih, turns_succ, List.flatMap_singleton]

theorem drop_turns {blocks : Nat} (hlt : k * n + i < blocks * n) (hi : i < n) :
    (turns blocks n).drop (k * n + i) = (k, i) :: (turns blocks n).drop (k * n + i + 1) := by
  have hlt : k * n + i < (turns blocks n).length := by rwa [length_turns]
  rw [List.drop_eq_getElem_cons hlt]
  congr 1
  obtain ⟨hdiv, hmod⟩ := Refinement.place_div_mod (k := k) hi
  simp only [turns, List.getElem_map, List.getElem_range, hdiv, hmod]

theorem splitBlock_eq_self {block : StateSet} (h : (splitBlock cls block).2 = none) :
    (splitBlock cls block).1 = block := by
  unfold splitBlock at h ⊢
  grind

namespace BlockQueue

/-- The queue when some of the pairs have had their turn. -/
def after (n done : Nat) (blocks : List StateSet) : BlockQueue :=
  ⟨blocks, (turns blocks.length n).drop done⟩

theorem divide_after {blocks : List StateSet} (hk : k < blocks.length)
    (hdone : done ≤ blocks.length * n) (keep added : StateSet) :
    divide (List.range n) (after n done blocks) (k, keep, added) =
      .ok (after n done (blocks.set k keep ++ [added])) := by
  have hwaiting : (turns blocks.length n).drop done ++
      (List.range n).map (fun i => (blocks.length, i)) =
        (turns (blocks.set k keep ++ [added]).length n).drop done := by
    rw [List.length_append, List.length_set, List.length_singleton, turns_succ,
      List.drop_append_of_le_length (by rwa [length_turns])]
  rw [divide, after, after, if_pos hk, hwaiting]

theorem foldlM_divide_after (cls : StateSet) (pre rest added : List StateSet)
    (hdone : done ≤ (pre ++ rest ++ added).length * n) :
    ((rest.zipIdx pre.length).filterMap (division? cls)).foldlM (divide (List.range n))
        (after n done (pre ++ rest ++ added)) =
      .ok (after n done (pre ++ (rest.map fun block => (splitBlock cls block).1) ++
        (added ++ rest.filterMap fun block => (splitBlock cls block).2))) := by
  induction rest generalizing pre added with
  | nil => simp; rfl
  | cons block rest ih =>
    rw [List.zipIdx_cons, List.map_cons]
    cases hsplit : (splitBlock cls block).2 with
    | none =>
      have hih := ih (pre ++ [block]) added (by simpa using hdone)
      rw [List.filterMap_cons_none (by simp [division?, hsplit]),
        List.filterMap_cons_none (f := fun block => (splitBlock cls block).2) hsplit,
        splitBlock_eq_self hsplit]
      simpa using hih
    | some part =>
      have hset : (pre ++ block :: rest ++ added).set pre.length (splitBlock cls block).1 ++
          [part] = pre ++ [(splitBlock cls block).1] ++ rest ++ (added ++ [part]) := by
        simp
      have hlen : (pre ++ block :: rest ++ added).length ≤
          (pre ++ [(splitBlock cls block).1] ++ rest ++ (added ++ [part])).length := by
        simp
      have hih := ih (pre ++ [(splitBlock cls block).1]) (added ++ [part])
        (Nat.le_trans hdone (Nat.mul_le_mul_right n hlen))
      rw [List.filterMap_cons_some (by rw [division?, hsplit]; rfl),
        List.filterMap_cons_some (f := fun block => (splitBlock cls block).2) hsplit,
        List.foldlM_cons, divide_after (by simp) hdone, ok_bind, hset]
      simpa using hih

theorem foldlM_divide (cls : StateSet) (blocks : Array StateSet) (hdone : done ≤ blocks.size * n) :
    (blocks.toList.zipIdx.filterMap (division? cls)).foldlM (divide (List.range n))
        (after n done blocks.toList) = .ok (after n done (splitBlocks cls blocks).toList) := by
  have hfold := foldlM_divide_after cls [] blocks.toList [] (by simpa using hdone)
  rw [toList_splitBlocks]
  simpa using hfold

theorem initial_eq_after (a : Automaton) : initial a =
    after a.alphabet.size (Refinement.initial a).done (Refinement.initial a).blocks.toList := by
  rw [initial, after, symbols, flatMap_range_eq_turns]
  rfl

variable {r : Refinement} {fuel : Nat}

theorem drain_of_not_unfinished (hdone : ¬r.unfinished a.alphabet.size) :
    drain a.sources a.symbols fuel (after a.alphabet.size r.done r.blocks.toList) =
      .ok r.blocks.toList := by
  rw [Refinement.unfinished_iff, Nat.not_lt] at hdone
  have hnil : (turns r.blocks.toList.length a.alphabet.size).drop r.done = [] :=
    List.drop_eq_nil_of_le (by rwa [length_turns, Array.length_toList])
  rw [drain, after, hnil]

theorem drain_cons {sources : TargetMap} {symbols : List SymbolIndex} {blocks : List StateSet}
    {pair : Nat × SymbolIndex} {waiting : List (Nat × SymbolIndex)} :
    drain sources symbols (fuel + 1) ⟨blocks, pair :: waiting⟩ =
      turn sources symbols ⟨blocks, waiting⟩ pair >>= drain sources symbols fuel := by
  rw [drain, turn, bind_assoc]

/-- The pair that waits first when the refinement is not finished, and what its turn yields. -/
theorem exists_turn_after (hlt : r.done < r.blocks.size * a.alphabet.size) :
    ∃ pair, after a.alphabet.size r.done r.blocks.toList = ⟨r.blocks.toList,
        pair :: (after a.alphabet.size (r.done + 1) r.blocks.toList).waiting⟩ ∧
      turn a.sources a.symbols (after a.alphabet.size (r.done + 1) r.blocks.toList) pair =
        .ok (after a.alphabet.size (r.step a.sources a.alphabet.size).done
          (r.step a.sources a.alphabet.size).blocks.toList) := by
  obtain ⟨k, splitter, i, hsplitter, hi, hdone, hstep⟩ := Refinement.exists_splitter hlt
  refine ⟨(k, i), ?_, ?_⟩
  · rw [after, after, hdone, drop_turns _ hi]
    rwa [Array.length_toList, ← hdone]
  · have hfold := foldlM_divide (a.sources.move splitter i) r.blocks (Nat.succ_le_of_lt hlt)
    rw [hstep, turn, after, Array.getElem?_toList, hsplitter, demand_some, ok_bind]
    exact hfold

theorem drain_of_unfinished (hlt : r.done < r.blocks.size * a.alphabet.size) :
    drain a.sources a.symbols (fuel + 1) (after a.alphabet.size r.done r.blocks.toList) =
      drain a.sources a.symbols fuel
        (after a.alphabet.size (r.step a.sources a.alphabet.size).done
          (r.step a.sources a.alphabet.size).blocks.toList) := by
  obtain ⟨pair, hafter, hturn⟩ := exists_turn_after hlt
  rw [hafter, drain_cons]
  exact congrArg (· >>= _) hturn

/-- The queue is worked off as the refinement runs. -/
theorem drain_after (h : a.WellFormed) (hr : r.Invariant a)
    (hfuel : a.completedStates.size * a.alphabet.size ≤ r.done + fuel) :
    drain a.sources a.symbols fuel (after a.alphabet.size r.done r.blocks.toList) =
      .ok (r.run a.sources a.alphabet.size fuel).blocks.toList := by
  induction fuel generalizing r with
  | zero => exact drain_of_not_unfinished (hr.not_unfinished_run h hfuel)
  | succ fuel ih =>
    unfold Refinement.run
    split
    · next hunfinished =>
      have hlt := Refinement.unfinished_iff.1 hunfinished
      rw [drain_of_unfinished hlt]
      refine ih (hr.step h hlt) ?_
      show _ ≤ r.done + 1 + fuel
      omega
    · next hdone => exact drain_of_not_unfinished hdone

end BlockQueue

theorem WellFormed.checkedRefinedBlocks_eq (h : a.WellFormed) :
    a.checkedRefinedBlocks = .ok a.refinedBlocks := by
  rw [checkedRefinedBlocks, BlockQueue.initial_eq_after, BlockQueue.drain_after h
    (Refinement.invariant_initial h) (Nat.le_add_left _ _), refinedBlocks_eq]

end Chomsky.Automaton
