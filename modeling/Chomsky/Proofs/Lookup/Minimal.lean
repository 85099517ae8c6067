import Chomsky.Proofs.Automaton.Minimal
import Chomsky.Proofs.Lookup.Refinement
import Chomsky.Proofs.Lookup.Subsets

/-! # Look-ups of minimization

Minimization with tables: the number of the block of every state, and the number of the new state of
every block that is kept. The blocks hold all reachable states and the sink, and every block other
than that of the sink is kept, so that both tables have what is looked up in them
(`checkedMerged_eq`).
-/

namespace Chomsky.Automaton

abbrev NumberedBlock := StateSet × Nat

def blockNumbers (blocks : List StateSet) : List (StateId × Nat) :=
  blocks.zipIdx.flatMap fun (block, k) => block.toList.map fun q => (q, k)

def numberedKept (blocks : List StateSet) (dead start : Nat) : List NumberedBlock :=
  blocks.zipIdx.filter fun (_, k) => k ≠ dead ∨ k = start

/-- The numbers of the new states of blocks, by the numbers of the blocks. -/
def newNumbers (kept : List NumberedBlock) : List (Nat × StateId) :=
  kept.zipIdx.map fun ((_, k), id) => (k, id)

def sortBlocks (blocks : List StateSet) : List StateSet :=
  blocks.mergeSort fun b c => b.least?.getD 0 ≤ c.least?.getD 0

variable (a : Automaton)

def sortedBlocks : List StateSet := sortBlocks a.refinedBlocks

def checkedBlockName (block : StateSet) : Except Fault String := do
  let names ← a.checkedNames (a.properMembers block)
  match names.mergeSort fun x y => x ≤ y with
  | [] => demand (a.stateName? a.start)
  | name :: _ => return name

def enterName (names : List String) (name : String) : StateId × List String :=
  match names.idxOf? name with
  | some id => (id, names)
  | none => (names.length, names ++ [name])

def enterBlock : List String × List (Nat × StateId) → NumberedBlock →
    Except Fault (List String × List (Nat × StateId))
  | (names, newIds), (block, k) => do
    let name ← a.checkedBlockName block
    let (id, names) := enterName names name
    return (names, newIds ++ [(k, id)])

/-- The new state of a state, unless its block is that of the sink. -/
def checkedClassOf? (blockOf : List (StateId × Nat)) (dead : Nat) (newIds : List (Nat × StateId))
    (q : StateId) : Except Fault (Option StateId) := do
  let k ← demand (blockOf.lookup q)
  if k = dead then return none
  let id ← demand (newIds.lookup k)
  return some id

/-- The edges of the new state of a block, for which the least member speaks. -/
def checkedBlockEdges (classOf? : StateId → Except Fault (Option StateId)) (block : StateSet)
    (id : StateId) : Except Fault (List (StateId × SymbolIndex × StateId)) :=
  match a.properMembers block with
  | [] => .ok []
  | q :: _ => do
    let targets ← a.symbols.mapM fun i => classOf? (a.target q i)
    return (a.symbols.zip targets).filterMap fun (i, target) => target.map fun r => (id, i, r)

def checkedRow (blocks : List StateSet) : Nat × StateId → Except Fault (StateSet × StateId)
  | (k, id) => do
    let block ← demand blocks[k]?
    return (block, id)

def checkedBuild (blocks : List StateSet) : Except Fault Automaton := do
  let dead ← demand ((blockNumbers blocks).lookup a.sink)
  let start ← demand ((blockNumbers blocks).lookup a.start)
  let (names, newIds) ← (numberedKept blocks dead start).foldlM a.enterBlock ([], [])
  let rows ← newIds.mapM (checkedRow blocks)
  let edges ← rows.mapM fun (block, id) =>
    a.checkedBlockEdges (checkedClassOf? (blockNumbers blocks) dead newIds) block id
  let newStart ← demand (newIds.lookup start)
  return {
    states := .ofList names
    alphabet := a.alphabet
    transitions := edges.flatten.foldl (fun ts (q, i, r) => Transitions.add ts q i r) ∅
    start := newStart
    accept := .ofList ((rows.filter fun (block, _) => block.intersects a.accept).map Prod.snd) }

def checkedMerged : Except Fault Automaton := do
  let blocks ← a.checkedRefinedBlocks
  a.checkedBuild (sortBlocks blocks)

def checkedDeterministic : Except Fault Automaton :=
  if a.isDeterministic then .ok a else a.checkedSubsetConstruction

/-- `minimize`, with all look-ups. -/
def checkedMinimize : Except Fault Automaton := do
  let d ← a.checkedDeterministic
  d.checkedMerged

variable {a} {b : StateSet} {q : StateId} {k dead start id : Nat}

theorem keptBlocks_eq :
    a.keptBlocks = a.sortedBlocks.filter fun b => a.sink ∉ b || a.start ∈ b := rfl

theorem disjoint_sortedBlocks (h : a.WellFormed) : DisjointBlocks a.sortedBlocks :=
  (List.mergeSort_perm _ _).symm.pairwise (disjointBlocks_refined h) fun hbc q hc hb => hbc q hb hc

theorem exists_getElem?_sortedBlocks (h : a.WellFormed) (hq : q ∈ a.completedStates) :
    ∃ (k : Nat) (b : StateSet), a.sortedBlocks[k]? = some b ∧ q ∈ b := by
  obtain ⟨b, hb, hqb⟩ := exists_refinedBlock h hq
  obtain ⟨k, hk⟩ := List.mem_iff_getElem?.1 (List.mem_mergeSort.2 hb)
  exact ⟨k, b, hk, hqb⟩

theorem lookup_blockNumbers (h : a.WellFormed) :
    (blockNumbers a.sortedBlocks).lookup q = some k ↔
      ∃ b, a.sortedBlocks[k]? = some b ∧ q ∈ b := by
  have hmem : ∀ {k}, (q, k) ∈ blockNumbers a.sortedBlocks ↔
      ∃ b, a.sortedBlocks[k]? = some b ∧ q ∈ b := by
    intro k
    simp only [blockNumbers, List.mem_flatMap, List.mem_map, Prod.exists,
      List.mem_zipIdx_iff_getElem?, Prod.mk.injEq]
    constructor
    · rintro ⟨b, _, hb, _, hq, rfl, rfl⟩
      exact ⟨b, hb, hq⟩
    · rintro ⟨b, hb, hq⟩
      exact ⟨b, k, hb, q, hq, rfl, rfl⟩
  rw [lookup_eq_some_iff_mem, hmem]
  intro k l hk hl
  obtain ⟨b, hb, hqb⟩ := hmem.1 hk
  obtain ⟨c, hc, hqc⟩ := hmem.1 hl
  exact (disjoint_sortedBlocks h).eq hb hc hqb hqc

theorem exists_lookup_blockNumbers (h : a.WellFormed) (hq : q ∈ a.completedStates) :
    ∃ k, (blockNumbers a.sortedBlocks).lookup q = some k := by
  obtain ⟨k, b, hk, hqb⟩ := exists_getElem?_sortedBlocks h hq
  exact ⟨k, (lookup_blockNumbers h).2 ⟨b, hk, hqb⟩⟩

theorem checkedBlockName_eq (h : a.WellFormed) (hb : b ∈ a.keptBlocks) :
    a.checkedBlockName b = .ok (a.blockName b) := by
  rw [checkedBlockName, checkedNames_eq fun q => lt_of_mem_properMembers h hb, ok_bind, blockName]
  split
  · next hnil => rw [hnil, stateName?_eq h.start_lt]; rfl
  · next hcons => rw [hcons]; rfl

/-- Blocks are made states of in their order, if their names are distinct. -/
theorem foldlM_enterBlock (blocks : List NumberedBlock) (names : List String)
    (newIds : List (Nat × StateId))
    (hname : ∀ e ∈ blocks, a.checkedBlockName e.1 = .ok (a.blockName e.1))
    (hnodup : (names ++ (blocks.map Prod.fst).map a.blockName).Nodup) :
    blocks.foldlM a.enterBlock (names, newIds) =
      .ok (names ++ (blocks.map Prod.fst).map a.blockName,
        newIds ++ (blocks.zipIdx names.length).map fun ((_, k), id) => (k, id)) := by
  induction blocks generalizing names newIds with
  | nil => simp; rfl
  | cons e blocks ih =>
    have hnone : names.idxOf? (a.blockName e.1) = none :=
      List.idxOf?_eq_none_iff.2 fun hmem =>
        (List.nodup_append.1 hnodup).2.2 _ hmem _ List.mem_cons_self rfl
    have henter : a.enterBlock (names, newIds) e =
        .ok (names ++ [a.blockName e.1], newIds ++ [(e.2, names.length)]) := by
      rw [enterBlock, hname e List.mem_cons_self, ok_bind, enterName, hnone]
      rfl
    have hih := ih (names ++ [a.blockName e.1]) (newIds ++ [(e.2, names.length)])
      (fun e he => hname e (List.mem_cons_of_mem _ he)) (by simpa using hnodup)
    rw [List.foldlM_cons, henter, ok_bind, hih]
    simp

theorem lookup_newNumbers :
    (newNumbers (numberedKept a.sortedBlocks dead start)).lookup k = some id ↔
      ∃ b, (numberedKept a.sortedBlocks dead start)[id]? = some (b, k) := by
  have hzip : newNumbers (numberedKept a.sortedBlocks dead start) =
      ((numberedKept a.sortedBlocks dead start).map Prod.snd).zipIdx := by
    rw [newNumbers, List.zipIdx_map]
    rfl
  have hnodup : ((numberedKept a.sortedBlocks dead start).map Prod.snd).Nodup := by
    refine List.Nodup.sublist (List.filter_sublist.map Prod.snd) ?_
    rw [List.zipIdx_map_snd]
    exact List.nodup_range'
  rw [hzip, lookup_zipIdx_eq_some_iff hnodup, List.getElem?_map, Option.map_eq_some_iff]
  simp

section Numbered

variable (h : a.WellFormed) (hdead : (blockNumbers a.sortedBlocks).lookup a.sink = some dead)
  (hstart : (blockNumbers a.sortedBlocks).lookup a.start = some start)
include h hdead hstart

theorem map_fst_numberedKept :
    (numberedKept a.sortedBlocks dead start).map Prod.fst = a.keptBlocks := by
  have hfilter : numberedKept a.sortedBlocks dead start =
      a.sortedBlocks.zipIdx.filter ((fun b => a.sink ∉ b || a.start ∈ b) ∘ Prod.fst) := by
    refine List.filter_congr fun ⟨b, k⟩ hk => ?_
    rw [List.mem_zipIdx_iff_getElem?] at hk
    have hiff : ∀ {q l}, (blockNumbers a.sortedBlocks).lookup q = some l → (k = l ↔ q ∈ b) := by
      intro q l hl
      obtain ⟨c, hc, hq⟩ := (lookup_blockNumbers h).1 hl
      constructor
      · rintro rfl
        obtain rfl : c = b := Option.some.inj (hc.symm.trans hk)
        exact hq
      · exact fun hqb => (disjoint_sortedBlocks h).eq hk hc hqb hq
    simp [hiff hdead, hiff hstart]
  rw [hfilter, keptBlocks_eq, ← List.filter_map, List.zipIdx_map_fst]

theorem getElem?_keptBlocks (hid : (numberedKept a.sortedBlocks dead start)[id]? = some (b, k)) :
    a.keptBlocks[id]? = some b := by
  rw [← map_fst_numberedKept h hdead hstart, List.getElem?_map, hid, Option.map_some]

theorem checkedClassOf?_eq (hq : q ∈ a.completedStates) :
    checkedClassOf? (blockNumbers a.sortedBlocks) dead
      (newNumbers (numberedKept a.sortedBlocks dead start)) q = .ok (a.classOf? q) := by
  obtain ⟨k, b, hk, hqb⟩ := exists_getElem?_sortedBlocks h hq
  obtain ⟨c, hc, hsink⟩ := (lookup_blockNumbers h).1 hdead
  rw [checkedClassOf?, (lookup_blockNumbers h).2 ⟨b, hk, hqb⟩, demand_some, ok_bind]
  by_cases hkd : k = dead
  · subst hkd
    obtain rfl : b = c := Option.some.inj (hk.symm.trans hc)
    have hb : b ∈ a.refinedBlocks := List.mem_mergeSort.1 (List.mem_of_getElem? hk)
    have hnone : a.classOf? q = none :=
      (classOf?_eq_none_iff h hq).2 ((mem_refinedBlock_iff h hb hqb).1 hsink).2
    rw [if_pos rfl, hnone]
    rfl
  · have hsinkb : a.sink ∉ b := fun hmem => hkd ((disjoint_sortedBlocks h).eq hk hc hmem hsink)
    have hkept : (b, k) ∈ numberedKept a.sortedBlocks dead start :=
      List.mem_filter.2 ⟨List.mem_zipIdx_iff_getElem?.2 hk, by simp [hkd]⟩
    obtain ⟨id, hid⟩ := List.mem_iff_getElem?.1 hkept
    rw [if_neg hkd, lookup_newNumbers.2 ⟨b, hid⟩, classOf?_eq_some h
      (getElem?_keptBlocks h hdead hstart hid) hqb hsinkb]
    rfl

theorem checkedBlockEdges_eq (id : StateId) (hb : b ∈ a.keptBlocks) :
    a.checkedBlockEdges (checkedClassOf? (blockNumbers a.sortedBlocks) dead
      (newNumbers (numberedKept a.sortedBlocks dead start))) b id =
    .ok (a.symbols.filterMap fun i => (a.blockTarget? b i).map fun r => (id, i, r)) := by
  unfold checkedBlockEdges blockTarget?
  cases hmembers : a.properMembers b with
  | nil => simp
  | cons q qs =>
    have hq : q ∈ b := (mem_properMembers_iff.1 (hmembers ▸ List.mem_cons_self)).1
    have hq' := ((mem_keptBlock_iff h hb hq).1 hq).1
    have htargets := mapM_eq_ok (l := a.symbols) fun i _ =>
      checkedClassOf?_eq h hdead hstart (h.target_mem_completedStates hq' i)
    simp only [htargets, ok_bind]
    rw [← List.map_prod_left_eq_zip, List.filterMap_map]
    rfl

theorem mapM_checkedRow :
    (newNumbers (numberedKept a.sortedBlocks dead start)).mapM (checkedRow a.sortedBlocks) =
      .ok a.keptBlocks.zipIdx := by
  have hrow : ∀ e ∈ (numberedKept a.sortedBlocks dead start).zipIdx,
      checkedRow a.sortedBlocks (e.1.2, e.2) = .ok (e.1.1, e.2) := by
    intro e he
    have hmem := List.mem_of_getElem? (List.mem_zipIdx_iff_getElem?.1 he)
    have hk := List.mem_zipIdx_iff_getElem?.1 (List.mem_filter.1 hmem).1
    rw [checkedRow, hk]
    rfl
  rw [newNumbers, List.mapM_map, ← map_fst_numberedKept h hdead hstart, List.zipIdx_map]
  exact mapM_eq_ok hrow

theorem lookup_start : (newNumbers (numberedKept a.sortedBlocks dead start)).lookup start =
    some a.merged.start := by
  obtain ⟨b, hk, hb⟩ := (lookup_blockNumbers h).1 hstart
  have hkept : (b, start) ∈ numberedKept a.sortedBlocks dead start :=
    List.mem_filter.2 ⟨List.mem_zipIdx_iff_getElem?.2 hk, by simp⟩
  obtain ⟨id, hid⟩ := List.mem_iff_getElem?.1 hkept
  have hmerged := eq_start_merged h (getElem?_keptBlocks h hdead hstart hid) hb
  rw [lookup_newNumbers.2 ⟨b, hid⟩, hmerged]

end Numbered

theorem WellFormed.checkedBuild_eq (h : a.WellFormed) :
    a.checkedBuild a.sortedBlocks = .ok a.merged := by
  obtain ⟨dead, hdead⟩ := exists_lookup_blockNumbers h sink_mem_completedStates
  obtain ⟨start, hstart⟩ := exists_lookup_blockNumbers h start_mem_completedStates
  have hkept := map_fst_numberedKept h hdead hstart
  have henter := foldlM_enterBlock (numberedKept a.sortedBlocks dead start) [] []
    (fun e he => checkedBlockName_eq h (hkept ▸ List.mem_map_of_mem he))
    (by rw [hkept]; exact nodup_blockNames h)
  rw [hkept, List.nil_append, List.nil_append, List.length_nil, ← newNumbers] at henter
  have hedges := mapM_eq_ok (l := a.keptBlocks.zipIdx) fun e he =>
    checkedBlockEdges_eq h hdead hstart e.2
      (List.mem_of_getElem? (List.mem_zipIdx_iff_getElem?.1 he))
  simp only [checkedBuild, hdead, hstart, demand_some, ok_bind, henter,
    mapM_checkedRow h hdead hstart, hedges, lookup_start h hdead hstart]
  have htransitions := Transitions.foldl_add_rows a.keptBlocks a.alphabet.size a.blockTarget?
  rw [← merged_transitions] at htransitions
  rw [← List.flatMap_def]
  exact congrArg (fun ts => Except.ok { a.merged with transitions := ts }) htransitions

theorem WellFormed.checkedMerged_eq (h : a.WellFormed) : a.checkedMerged = .ok a.merged := by
  rw [checkedMerged, h.checkedRefinedBlocks_eq, ok_bind, ← sortedBlocks, h.checkedBuild_eq]

theorem WellFormed.checkedDeterministic_eq (h : a.WellFormed) :
    a.checkedDeterministic = a.toDeterministic.mapError .rejected := by
  unfold checkedDeterministic Automaton.toDeterministic
  by_cases hdet : a.isDeterministic
  · rw [if_pos hdet, if_pos hdet]
    rfl
  · rw [if_neg hdet, if_neg hdet]
    exact h.checkedSubsetConstruction_eq

/-- Minimizing a well-formed automaton finds all that it looks up. -/
theorem WellFormed.checkedMinimize_eq (h : a.WellFormed) :
    a.checkedMinimize = a.minimize.mapError .rejected := by
  rw [checkedMinimize, h.checkedDeterministic_eq, minimize]
  cases hd : a.toDeterministic with
  | error e => simp only [Except.mapError, Except.map, error_bind]
  | ok d =>
    simp only [Except.mapError, Except.map, ok_bind, (h.toDeterministic hd).checkedMerged_eq]

end Chomsky.Automaton
