import Chomsky.Proofs.Automaton.Future

/-! # The invariant of the refinement

The blocks are disjoint and hold all states, states of the same future share a block, and where
two states of one block step into different ones, one of these blocks has still to split the
others (`Refinement.Invariant`). A step preserves this, and when no block has to split the others
any more, states share a block if and only if they have the same future
(`mem_refinedBlock_iff`).
-/

namespace Chomsky.Automaton

variable {a : Automaton} {q r : StateId} {i : SymbolIndex} {k : Nat} {cls block part : StateSet}
  {blocks : Array StateSet}

/-- One of the parts into which a class divides a block. -/
def IsPart (cls block part : StateSet) : Prop :=
  (∃ q, q ∈ part) ∧ ∀ q ∈ part, ∀ r, r ∈ part ↔ r ∈ block ∧ (r ∈ cls ↔ q ∈ cls)

theorem IsPart.mem (h : IsPart cls block part) (hq : q ∈ part) : q ∈ block :=
  ((h.2 q hq q).1 hq).1

theorem IsPart.mem_cls_iff (h : IsPart cls block part) (hq : q ∈ part) (hr : r ∈ part) :
    r ∈ cls ↔ q ∈ cls := ((h.2 q hq r).1 hr).2

theorem isPart_of_uniform (hne : ∃ q, q ∈ block)
    (h : ∀ q ∈ block, ∀ r ∈ block, r ∈ cls ↔ q ∈ cls) :
    IsPart cls block block :=
  ⟨hne, fun q hq r => ⟨fun hr => ⟨hr, h q hq r hr⟩, And.left⟩⟩

theorem isPart_inter (hne : ∃ q, q ∈ block ∩ cls) : IsPart cls block (block ∩ cls) := by
  refine ⟨hne, fun q hq r => ?_⟩
  have hq := (StateSet.mem_inter.1 hq).2
  rw [StateSet.mem_inter]
  simp only [hq, iff_true]

theorem isPart_sdiff (hne : ∃ q, q ∈ block \ cls) : IsPart cls block (block \ cls) := by
  refine ⟨hne, fun q hq r => ?_⟩
  have hq := (StateSet.mem_sdiff.1 hq).2
  rw [StateSet.mem_sdiff]
  simp only [hq, iff_false]

theorem exists_mem_of_not_isEmpty {s : StateSet} (h : ¬s.isEmpty) : ∃ q, q ∈ s := by
  rw [StateSet.isEmpty_iff] at h
  exact Classical.byContradiction fun hnot => h (not_exists.1 hnot)

/-- The outcomes of a split: the block stays whole, or both of its parts are there. -/
theorem splitBlock_cases (hne : ∃ q, q ∈ block) :
    (splitBlock cls block = (block, none) ∧ IsPart cls block block) ∨
      ∃ keep added, splitBlock cls block = (keep, some added) ∧ IsPart cls block keep ∧
        IsPart cls block added ∧ (∀ q ∈ block, q ∈ keep ∨ q ∈ added) ∧ ∀ q ∈ keep, q ∉ added := by
  unfold splitBlock
  by_cases hin : (block ∩ cls).isEmpty
  · have hout : ∀ q ∈ block, q ∉ cls := fun q hq hc =>
      StateSet.isEmpty_iff.1 hin q (StateSet.mem_inter.2 ⟨hq, hc⟩)
    refine Or.inl ⟨by simp only [hin, if_true], isPart_of_uniform hne fun q hq r hr => ?_⟩
    simp only [hout q hq, hout r hr]
  · by_cases hout : (block \ cls).isEmpty
    · have hin' : ∀ q ∈ block, q ∈ cls := fun q hq => Decidable.byContradiction fun hc =>
        StateSet.isEmpty_iff.1 hout q (StateSet.mem_sdiff.2 ⟨hq, hc⟩)
      refine Or.inl ⟨by simp only [hin, hout, if_true, if_false, Bool.false_eq_true],
        isPart_of_uniform hne fun q hq r hr => ?_⟩
      simp only [hin' q hq, hin' r hr]
    · have hinside := isPart_inter (exists_mem_of_not_isEmpty hin)
      have houtside := isPart_sdiff (exists_mem_of_not_isEmpty hout)
      have hcover : ∀ q ∈ block, q ∈ block ∩ cls ∨ q ∈ block \ cls := by
        intro q hq
        by_cases hc : q ∈ cls
        · exact Or.inl (StateSet.mem_inter.2 ⟨hq, hc⟩)
        · exact Or.inr (StateSet.mem_sdiff.2 ⟨hq, hc⟩)
      have hdisjoint : ∀ q ∈ block ∩ cls, q ∉ block \ cls := fun q hq hq' =>
        (StateSet.mem_sdiff.1 hq').2 (StateSet.mem_inter.1 hq).2
      simp only [hin, hout, if_false, Bool.false_eq_true]
      apply Or.inr
      split
      · exact ⟨_, _, rfl, houtside, hinside, fun q hq => (hcover q hq).symm,
          fun q hq hq' => hdisjoint q hq' hq⟩
      · exact ⟨_, _, rfl, hinside, houtside, hcover, hdisjoint⟩

theorem isPart_kept (hne : ∃ q, q ∈ block) : IsPart cls block (splitBlock cls block).1 := by
  rcases splitBlock_cases hne with ⟨hsplit, hpart⟩ | ⟨_, _, hsplit, hpart, -⟩
  · rwa [hsplit]
  · rwa [hsplit]

theorem isPart_added (hne : ∃ q, q ∈ block) (hadded : (splitBlock cls block).2 = some part) :
    IsPart cls block part ∧ ∀ q ∈ (splitBlock cls block).1, q ∉ part := by
  rcases splitBlock_cases hne with ⟨hsplit, -⟩ | ⟨_, _, hsplit, -, hpart, -, hdisjoint⟩
  · rw [hsplit] at hadded
    cases hadded
  · rw [hsplit] at hadded ⊢
    cases hadded
    exact ⟨hpart, hdisjoint⟩

theorem toList_splitBlocks : (splitBlocks cls blocks).toList =
    (blocks.toList.map fun block => (splitBlock cls block).1) ++
      blocks.toList.filterMap fun block => (splitBlock cls block).2 := by
  unfold splitBlocks
  split
  · next hcls =>
    have hwhole : ∀ block, splitBlock cls block = (block, none) := by
      intro block
      have hin : (block ∩ cls).isEmpty := StateSet.isEmpty_iff.2 fun q hq =>
        StateSet.isEmpty_iff.1 hcls q (StateSet.mem_inter.1 hq).2
      simp only [splitBlock, hin, if_true]
    simp [hwhole]
  · simp [Function.comp_def]

theorem getElem?_splitBlocks (hne : ∀ block ∈ blocks, ∃ q, q ∈ block)
    (hk : (splitBlocks cls blocks)[k]? = some part) :
    ∃ block ∈ blocks, IsPart cls block part ∧ (blocks[k]? = some block ∨ blocks.size ≤ k) := by
  rw [← Array.getElem?_toList, toList_splitBlocks, List.getElem?_append] at hk
  split at hk
  · rw [List.getElem?_map, Option.map_eq_some_iff] at hk
    obtain ⟨block, hblock, rfl⟩ := hk
    rw [Array.getElem?_toList] at hblock
    have hmem := Array.mem_of_getElem? hblock
    exact ⟨block, hmem, isPart_kept (hne block hmem), Or.inl hblock⟩
  · next hlt =>
    obtain ⟨block, hmem, hadded⟩ := List.mem_filterMap.1 (List.mem_of_getElem? hk)
    rw [Array.mem_toList_iff] at hmem
    exact ⟨block, hmem, (isPart_added (hne block hmem) hadded).1, Or.inr (by simpa using hlt)⟩

theorem exists_mem_splitBlocks (hblock : block ∈ blocks) (hq : q ∈ block) :
    ∃ part ∈ splitBlocks cls blocks, q ∈ part := by
  have hmem : ∀ part, ((splitBlock cls block).1 = part ∨ (splitBlock cls block).2 = some part) →
      part ∈ splitBlocks cls blocks := by
    intro part hpart
    rw [← Array.mem_toList_iff, toList_splitBlocks, List.mem_append, List.mem_map,
      List.mem_filterMap]
    exact hpart.imp (fun h => ⟨block, hblock.val, h⟩) fun h => ⟨block, hblock.val, h⟩
  rcases splitBlock_cases ⟨q, hq⟩ with ⟨hsplit, -⟩ | ⟨keep, added, hsplit, -, -, hcover, -⟩
  · exact ⟨block, hmem block (Or.inl (by rw [hsplit])), hq⟩
  · rcases hcover q hq with hkeep | hadded
    · exact ⟨keep, hmem keep (Or.inl (by rw [hsplit])), hkeep⟩
    · exact ⟨added, hmem added (Or.inr (by rw [hsplit])), hadded⟩

def DisjointBlocks (l : List StateSet) : Prop := l.Pairwise fun b c => ∀ q ∈ b, q ∉ c

theorem DisjointBlocks.eq {s : List StateSet} {b c : StateSet} {l : Nat} (h : DisjointBlocks s)
    (hb : s[k]? = some b) (hc : s[l]? = some c) (hqb : q ∈ b) (hqc : q ∈ c) : k = l := by
  rw [List.getElem?_eq_some_iff] at hb hc
  obtain ⟨hk, rfl⟩ := hb
  obtain ⟨hl, rfl⟩ := hc
  have h := List.pairwise_iff_getElem.1 h
  rcases Nat.lt_trichotomy k l with hlt | heq | hgt
  · exact absurd hqc (h k l hk hl hlt q hqb)
  · exact heq
  · exact absurd hqb (h l k hl hk hgt q hqc)

theorem DisjointBlocks.splitBlocks (h : DisjointBlocks blocks.toList)
    (hne : ∀ block ∈ blocks, ∃ q, q ∈ block) :
    DisjointBlocks (splitBlocks cls blocks).toList := by
  have hkept : ∀ b ∈ blocks.toList, IsPart cls b (splitBlock cls b).1 := fun b hb =>
    isPart_kept (hne b ⟨hb⟩)
  have hadded : ∀ b ∈ blocks.toList, ∀ part, (splitBlock cls b).2 = some part →
      IsPart cls b part ∧ ∀ q ∈ (splitBlock cls b).1, q ∉ part := fun b hb part =>
    isPart_added (hne b ⟨hb⟩)
  unfold DisjointBlocks at h ⊢
  rw [toList_splitBlocks, List.pairwise_append]
  refine ⟨?_, ?_, ?_⟩
  · rw [List.pairwise_map]
    refine h.imp_of_mem fun hb hc hbc q hq hq' => ?_
    exact hbc q ((hkept _ hb).mem hq) ((hkept _ hc).mem hq')
  · rw [List.pairwise_filterMap]
    refine h.imp_of_mem fun hb hc hbc x hx y hy q hq hq' => ?_
    exact hbc q ((hadded _ hb x hx).1.mem hq) ((hadded _ hc y hy).1.mem hq')
  · intro x hx y hy q hq hq'
    obtain ⟨b, hb, rfl⟩ := List.mem_map.1 hx
    obtain ⟨c, hc, hy⟩ := List.mem_filterMap.1 hy
    have hqb := (hkept b hb).mem hq
    have hqc := (hadded c hc y hy).1.mem hq'
    obtain ⟨k, hk⟩ := List.mem_iff_getElem?.1 hb
    obtain ⟨l, hl⟩ := List.mem_iff_getElem?.1 hc
    cases DisjointBlocks.eq h hk hl hqb hqc
    cases hk.symm.trans hl
    exact (hadded b hb y hy).2 q hq hq'

theorem least_mem {s : StateSet} (h : ∃ q, q ∈ s) : s.least?.getD 0 ∈ s := by
  cases hleast : s.least? with
  | none =>
    obtain ⟨q, hq⟩ := h
    exact absurd hq (StateSet.isEmpty_iff.1 (StateSet.least?_eq_none_iff.1 hleast) q)
  | some q => exact StateSet.mem_of_least? hleast

theorem least_le {s : StateSet} (h : q ∈ s) : s.least?.getD 0 ≤ q := by
  obtain ⟨l, hl⟩ := s
  cases l with
  | nil => exact absurd h StateSet.not_mem_empty
  | cons p l =>
    rcases List.mem_cons.1 (StateSet.mem_def.1 h) with rfl | h
    · exact Nat.le_refl q
    · exact Nat.le_of_lt (List.rel_of_pairwise_cons hl h)

theorem DisjointBlocks.length_le {l : List StateSet} {s : StateSet} (h : DisjointBlocks l)
    (hne : ∀ b ∈ l, ∃ q, q ∈ b) (hmem : ∀ b ∈ l, ∀ q ∈ b, q ∈ s) : l.length ≤ s.size := by
  have hleast : ∀ b ∈ l, b.least?.getD 0 ∈ b := fun b hb => least_mem (hne b hb)
  have hnodup : (l.map fun b => b.least?.getD 0).Nodup := by
    refine List.pairwise_map.2 (h.imp_of_mem fun hb hc hbc heq => ?_)
    exact hbc _ (hleast _ hb) (heq ▸ hleast _ hc)
  have hle := length_le_of_nodup hnodup (m := s.toList) fun q hq => by
    obtain ⟨b, hb, rfl⟩ := List.mem_map.1 hq
    exact hmem b hb _ (hleast b hb)
  rwa [List.length_map] at hle

namespace Refinement

/-- What holds between the steps of the refinement. -/
structure Invariant (a : Automaton) (r : Refinement) : Prop where
  nonempty : ∀ b ∈ r.blocks, ∃ q, q ∈ b
  disjoint : DisjointBlocks r.blocks.toList
  covers : ∀ q, q ∈ a.completedStates ↔ ∃ b ∈ r.blocks, q ∈ b
  accept : ∀ b ∈ r.blocks, ∀ p ∈ b, ∀ q ∈ b, p ∈ a.accept ↔ q ∈ a.accept
  together : ∀ b ∈ r.blocks, ∀ p ∈ b, ∀ q ∈ a.completedStates, a.SameFuture p q → q ∈ b
  pending : ∀ b ∈ r.blocks, ∀ p ∈ b, ∀ q ∈ b, ∀ i < a.alphabet.size, ∀ k l c d,
    r.blocks[k]? = some c → r.blocks[l]? = some d → a.target p i ∈ c → a.target q i ∈ d → k ≠ l →
    r.done ≤ k * a.alphabet.size + i ∨ r.done ≤ l * a.alphabet.size + i

variable {r : Refinement}

theorem mem_blocks_initial {b : StateSet} : b ∈ (initial a).blocks ↔
    (b = a.completedStates ∩ a.accept ∨ b = a.completedStates \ a.accept) ∧ ∃ q, q ∈ b := by
  have hne : (!b.isEmpty) = true ↔ ∃ q, q ∈ b := by
    rw [Bool.not_eq_true', ← Bool.not_eq_true, StateSet.isEmpty_iff]
    simp
  simp only [initial, Array.mem_filter, hne, List.mem_toArray, List.mem_cons, List.not_mem_nil,
    or_false]

theorem invariant_initial (h : a.WellFormed) : Invariant a (initial a) where
  nonempty b hb := (mem_blocks_initial.1 hb).2
  disjoint := by
    have hpair : DisjointBlocks [a.completedStates ∩ a.accept, a.completedStates \ a.accept] := by
      apply List.pairwise_pair.2
      intro q hq hq'
      exact (StateSet.mem_sdiff.1 hq').2 (StateSet.mem_inter.1 hq).2
    unfold DisjointBlocks initial
    rw [Array.toList_filter]
    exact hpair.filter _
  covers q := by
    constructor
    · intro hq
      by_cases hacc : q ∈ a.accept
      · have hmem := StateSet.mem_inter.2 ⟨hq, hacc⟩
        exact ⟨_, mem_blocks_initial.2 ⟨Or.inl rfl, q, hmem⟩, hmem⟩
      · have hmem := StateSet.mem_sdiff.2 ⟨hq, hacc⟩
        exact ⟨_, mem_blocks_initial.2 ⟨Or.inr rfl, q, hmem⟩, hmem⟩
    · rintro ⟨b, hb, hq⟩
      rcases (mem_blocks_initial.1 hb).1 with rfl | rfl
      · exact (StateSet.mem_inter.1 hq).1
      · exact (StateSet.mem_sdiff.1 hq).1
  accept b hb p hp q hq := by
    rcases (mem_blocks_initial.1 hb).1 with rfl | rfl
    · simp only [(StateSet.mem_inter.1 hp).2, (StateSet.mem_inter.1 hq).2]
    · simp only [(StateSet.mem_sdiff.1 hp).2, (StateSet.mem_sdiff.1 hq).2]
  together b hb p hp q hq hpq := by
    have hacc := h.accept_iff_of_sameFuture hpq
    rcases (mem_blocks_initial.1 hb).1 with rfl | rfl
    · exact StateSet.mem_inter.2 ⟨hq, hacc.1 (StateSet.mem_inter.1 hp).2⟩
    · exact StateSet.mem_sdiff.2 ⟨hq, fun hq' => (StateSet.mem_sdiff.1 hp).2 (hacc.2 hq')⟩
  pending := fun _ _ _ _ _ _ _ _ _ _ _ _ _ _ _ _ _ => Or.inl (Nat.zero_le _)

theorem mem_move_sources {s : StateSet} :
    q ∈ a.sources.move s i ↔ q ∈ a.completedStates ∧ a.target q i ∈ s := by
  apply mem_foldl_union.trans
  simp only [StateSet.not_mem_empty, false_or, mem_sources]
  constructor
  · rintro ⟨r, hr, hq, rfl⟩
    exact ⟨hq, hr⟩
  · rintro ⟨hq, hs⟩
    exact ⟨_, hs, hq, rfl⟩

/-- The block and the symbol by which the next step splits, and what they separate. -/
theorem exists_splitter (hlt : r.done < r.blocks.size * a.alphabet.size) :
    ∃ k splitter i, r.blocks[k]? = some splitter ∧ i < a.alphabet.size ∧
      r.done = k * a.alphabet.size + i ∧
      step a.sources a.alphabet.size r =
        { blocks := splitBlocks (a.sources.move splitter i) r.blocks, done := r.done + 1 } := by
  have hpos : 0 < a.alphabet.size := by
    rcases Nat.eq_zero_or_pos a.alphabet.size with hzero | hpos
    · rw [hzero, Nat.mul_zero] at hlt
      exact absurd hlt (Nat.not_lt_zero _)
    · exact hpos
  have hk : r.done / a.alphabet.size < r.blocks.size :=
    Nat.div_lt_of_lt_mul (Nat.mul_comm _ _ ▸ hlt)
  refine ⟨r.done / a.alphabet.size, r.blocks[r.done / a.alphabet.size], r.done % a.alphabet.size,
    Array.getElem?_eq_getElem hk, Nat.mod_lt _ hpos, (Nat.div_add_mod' _ _).symm, ?_⟩
  rw [step, Array.getD_eq_getD_getElem?, Array.getElem?_eq_getElem hk, Option.getD_some]

theorem place_div_mod {n k i : Nat} (hi : i < n) : (k * n + i) / n = k ∧ (k * n + i) % n = i := by
  constructor
  · rw [Nat.mul_comm, Nat.mul_add_div (Nat.zero_lt_of_lt hi), Nat.div_eq_of_lt hi, Nat.add_zero]
  · rw [Nat.mul_add_mod', Nat.mod_eq_of_lt hi]

theorem place_eq {n k l i j : Nat} (hi : i < n) (hj : j < n) (h : k * n + i = l * n + j) :
    k = l ∧ i = j := by
  obtain ⟨hk, hi'⟩ := place_div_mod (k := k) hi
  obtain ⟨hl, hj'⟩ := place_div_mod (k := l) hj
  rw [h] at hk hi'
  exact ⟨hk.symm.trans hl, hi'.symm.trans hj'⟩

theorem Invariant.eq {b c : StateSet} {l : Nat} (hr : Invariant a r) (hb : r.blocks[k]? = some b)
    (hc : r.blocks[l]? = some c) (hqb : q ∈ b) (hqc : q ∈ c) : k = l := by
  rw [← Array.getElem?_toList] at hb hc
  exact hr.disjoint.eq hb hc hqb hqc

theorem Invariant.mem_states (hr : Invariant a r) (hb : block ∈ r.blocks) (hq : q ∈ block) :
    q ∈ a.completedStates := (hr.covers q).2 ⟨block, hb, hq⟩

/-- The sources of a block separate the states of a block by where they step. -/
theorem Invariant.mem_move_sources_iff {s : StateSet} (hr : Invariant a r) (hb : block ∈ r.blocks)
    (hq : q ∈ block) : q ∈ a.sources.move s i ↔ a.target q i ∈ s := by
  rw [mem_move_sources]
  exact and_iff_right (hr.mem_states hb hq)

/-- The parts of a block hold all states of the futures that they hold, since all of them step into
the splitter or none does. -/
theorem Invariant.together_part {p : StateId} {splitter : StateSet} (h : a.WellFormed)
    (hr : Invariant a r) (hsplitter : splitter ∈ r.blocks) (hi : i < a.alphabet.size)
    (hb : block ∈ r.blocks) (hpart : IsPart (a.sources.move splitter i) block part)
    (hp : p ∈ part) (hq : q ∈ a.completedStates) (hpq : a.SameFuture p q) : q ∈ part := by
  have hpb := hpart.mem hp
  have hqb := hr.together block hb p hpb q hq hpq
  have hnext := h.sameFuture_target hpq hi
  have hpt := h.target_mem_completedStates (hr.mem_states hb hpb) i
  have hqt := h.target_mem_completedStates hq i
  refine (hpart.2 p hp q).2 ⟨hqb, ?_⟩
  rw [hr.mem_move_sources_iff hb hpb, hr.mem_move_sources_iff hb hqb]
  constructor
  · intro ht
    exact hr.together splitter hsplitter _ ht _ hpt hnext.symm
  · intro ht
    exact hr.together splitter hsplitter _ ht _ hqt hnext

theorem Invariant.pending_next {k₀ i₀ k l : Nat} {p : StateId} {splitter c d : StateSet}
    (hr : Invariant a r) (hsplitter : r.blocks[k₀]? = some splitter) (hi₀ : i₀ < a.alphabet.size)
    (hdone : r.done = k₀ * a.alphabet.size + i₀) (hb : block ∈ r.blocks) (hp : p ∈ block)
    (hq : q ∈ block) (hpq : a.target p i₀ ∈ splitter ↔ a.target q i₀ ∈ splitter)
    (hi : i < a.alphabet.size) (hc : r.blocks[k]? = some c) (hd : r.blocks[l]? = some d)
    (hpc : a.target p i ∈ c) (hqd : a.target q i ∈ d) (hkl : k ≠ l) :
    r.done + 1 ≤ k * a.alphabet.size + i ∨ r.done + 1 ≤ l * a.alphabet.size + i := by
  have hturn : ∀ m e, r.blocks[m]? = some e → r.done = m * a.alphabet.size + i →
      e = splitter ∧ i = i₀ := by
    intro m e he hm
    obtain ⟨rfl, rfl⟩ := place_eq hi hi₀ (hm.symm.trans hdone)
    exact ⟨Option.some.inj (he.symm.trans hsplitter), rfl⟩
  rcases hr.pending block hb p hp q hq i hi k l c d hc hd hpc hqd hkl with hle | hle
  · rcases Nat.eq_or_lt_of_le hle with heq | hlt
    · obtain ⟨rfl, rfl⟩ := hturn k c hc heq
      exact absurd (hr.eq hc hd (hpq.1 hpc) hqd) hkl
    · exact Or.inl hlt
  · rcases Nat.eq_or_lt_of_le hle with heq | hlt
    · obtain ⟨rfl, rfl⟩ := hturn l d hd heq
      exact absurd (hr.eq hc hd hpc (hpq.2 hqd)) hkl
    · exact Or.inr hlt

theorem Invariant.step (h : a.WellFormed) (hr : Invariant a r)
    (hlt : r.done < r.blocks.size * a.alphabet.size) :
    Invariant a (step a.sources a.alphabet.size r) := by
  obtain ⟨k₀, splitter, i₀, hsplitter, hi₀, hdone, hstep⟩ := exists_splitter hlt
  rw [hstep]
  have hparts : ∀ b' ∈ splitBlocks (a.sources.move splitter i₀) r.blocks,
      ∃ b ∈ r.blocks, IsPart (a.sources.move splitter i₀) b b' := by
    intro b' hb'
    obtain ⟨k, hk⟩ := Array.mem_iff_getElem?.1 hb'
    obtain ⟨b, hb, hpart, -⟩ := getElem?_splitBlocks hr.nonempty hk
    exact ⟨b, hb, hpart⟩
  constructor
  case nonempty =>
    intro b' hb'
    obtain ⟨b, -, hpart⟩ := hparts b' hb'
    exact hpart.1
  case disjoint => exact hr.disjoint.splitBlocks hr.nonempty
  case covers =>
    intro q
    rw [hr.covers q]
    constructor
    · rintro ⟨b, hb, hq⟩
      exact exists_mem_splitBlocks hb hq
    · rintro ⟨b', hb', hq⟩
      obtain ⟨b, hb, hpart⟩ := hparts b' hb'
      exact ⟨b, hb, hpart.mem hq⟩
  case accept =>
    intro b' hb' p hp q hq
    obtain ⟨b, hb, hpart⟩ := hparts b' hb'
    exact hr.accept b hb p (hpart.mem hp) q (hpart.mem hq)
  case together =>
    intro b' hb' p hp q hq hpq
    obtain ⟨b, hb, hpart⟩ := hparts b' hb'
    exact hr.together_part h (Array.mem_of_getElem? hsplitter) hi₀ hb hpart hp hq hpq
  case pending =>
    intro b' hb' p hp q hq i hi k l c' d' hc' hd' hpc hqd hkl
    obtain ⟨b, hb, hpart⟩ := hparts b' hb'
    obtain ⟨c, -, hpartc, hc⟩ := getElem?_splitBlocks hr.nonempty hc'
    obtain ⟨d, -, hpartd, hd⟩ := getElem?_splitBlocks hr.nonempty hd'
    have hlate : ∀ m, r.blocks.size ≤ m → r.done + 1 ≤ m * a.alphabet.size + i := by
      intro m hm
      have := Nat.mul_le_mul_right a.alphabet.size hm
      omega
    have hpq := hpart.mem_cls_iff hq hp
    rw [hr.mem_move_sources_iff hb (hpart.mem hp), hr.mem_move_sources_iff hb (hpart.mem hq)] at hpq
    rcases hc with hc | hc
    · rcases hd with hd | hd
      · exact hr.pending_next hsplitter hi₀ hdone hb (hpart.mem hp) (hpart.mem hq) hpq hi hc hd
          (hpartc.mem hpc) (hpartd.mem hqd) hkl
      · exact Or.inr (hlate l hd)
    · exact Or.inl (hlate k hc)

theorem unfinished_iff :
    r.unfinished a.alphabet.size ↔ r.done < r.blocks.size * a.alphabet.size := by
  rw [unfinished, decide_eq_true_eq]

theorem Invariant.run (h : a.WellFormed) (hr : Invariant a r) (fuel : Nat) :
    Invariant a (run a.sources a.alphabet.size fuel r) := by
  induction fuel generalizing r with
  | zero => exact hr
  | succ fuel ih =>
    unfold Refinement.run
    split
    · next hunfinished => exact ih (hr.step h (unfinished_iff.1 hunfinished))
    · exact hr

theorem Invariant.size_le (hr : Invariant a r) : r.blocks.size ≤ a.completedStates.size :=
  hr.disjoint.length_le (fun b hb => hr.nonempty b ⟨hb⟩) fun b hb q hq =>
    (hr.covers q).2 ⟨b, ⟨hb⟩, hq⟩

/-- The fuel is enough, since there are no more blocks than states. -/
theorem Invariant.not_unfinished_run (h : a.WellFormed) (hr : Invariant a r) {fuel : Nat}
    (hfuel : a.completedStates.size * a.alphabet.size ≤ r.done + fuel) :
    ¬(Refinement.run a.sources a.alphabet.size fuel r).unfinished a.alphabet.size := by
  induction fuel generalizing r with
  | zero =>
    have hle := Nat.mul_le_mul_right a.alphabet.size hr.size_le
    rw [unfinished_iff]
    exact Nat.not_lt.2 (Nat.le_trans hle hfuel)
  | succ fuel ih =>
    unfold Refinement.run
    split
    · next hunfinished =>
      apply ih (hr.step h (unfinished_iff.1 hunfinished))
      show _ ≤ r.done + 1 + fuel
      omega
    · assumption

/-- When no block has to split the others any more, states of one block have the same future. -/
theorem Invariant.sameFuture (h : a.WellFormed) (hr : Invariant a r)
    (hdone : ¬r.unfinished a.alphabet.size) {b : StateSet} (hb : b ∈ r.blocks) {p : StateId}
    (hp : p ∈ b) (hq : q ∈ b) : a.SameFuture p q := by
  refine h.sameFuture_of_bisimulation (R := fun p q => ∃ b ∈ r.blocks, p ∈ b ∧ q ∈ b) ?_ ?_
    ⟨b, hb, hp, hq⟩
  · rintro p q ⟨b, hb, hp, hq⟩
    exact hr.accept b hb p hp q hq
  · rintro p q i ⟨b, hb, hp, hq⟩ hi
    have hnext : ∀ s ∈ b, ∃ (k : Nat) (c : StateSet), r.blocks[k]? = some c ∧ a.target s i ∈ c := by
      intro s hs
      have hs := h.target_mem_completedStates (hr.mem_states hb hs) i
      obtain ⟨c, hc, hsc⟩ := (hr.covers _).1 hs
      obtain ⟨k, hk⟩ := Array.mem_iff_getElem?.1 hc
      exact ⟨k, c, hk, hsc⟩
    obtain ⟨k, c, hc, hpc⟩ := hnext p hp
    obtain ⟨l, d, hd, hqd⟩ := hnext q hq
    have hlate : ∀ (m : Nat) (e : StateSet), r.blocks[m]? = some e →
        m * a.alphabet.size + i < r.done := by
      intro m e he
      have hm := (Array.getElem?_eq_some_iff.1 he).1
      have hle := Nat.mul_le_mul_right a.alphabet.size (Nat.succ_le_of_lt hm)
      rw [unfinished_iff] at hdone
      rw [Nat.succ_mul] at hle
      omega
    by_cases hkl : k = l
    · subst hkl
      obtain rfl := Option.some.inj (hc.symm.trans hd)
      exact ⟨c, Array.mem_of_getElem? hc, hpc, hqd⟩
    · have hpending := hr.pending b hb p hp q hq i hi k l c d hc hd hpc hqd hkl
      have hk := hlate k c hc
      have hl := hlate l d hd
      omega

end Refinement

def refined (a : Automaton) : Refinement :=
  .run a.sources a.alphabet.size (a.completedStates.size * a.alphabet.size) (.initial a)

variable {b : StateSet} {p : StateId}

theorem mem_refinedBlocks_iff : b ∈ a.refinedBlocks ↔ b ∈ a.refined.blocks := by
  rw [refinedBlocks_eq, Array.mem_toList_iff, refined]

theorem invariant_refined (h : a.WellFormed) : a.refined.Invariant a :=
  (Refinement.invariant_initial h).run h _

theorem not_unfinished_refined (h : a.WellFormed) : ¬a.refined.unfinished a.alphabet.size :=
  (Refinement.invariant_initial h).not_unfinished_run h (Nat.le_add_left _ _)

theorem disjointBlocks_refined (h : a.WellFormed) :
    DisjointBlocks a.refinedBlocks := by
  rw [refinedBlocks_eq]
  exact (invariant_refined h).disjoint

theorem exists_mem_refinedBlock (h : a.WellFormed) (hb : b ∈ a.refinedBlocks) : ∃ q, q ∈ b :=
  (invariant_refined h).nonempty b (mem_refinedBlocks_iff.1 hb)

theorem exists_refinedBlock (h : a.WellFormed) (hq : q ∈ a.completedStates) :
    ∃ b ∈ a.refinedBlocks, q ∈ b := by
  obtain ⟨b, hb, hq⟩ := ((invariant_refined h).covers q).1 hq
  exact ⟨b, mem_refinedBlocks_iff.2 hb, hq⟩

/-- In the end the blocks are the classes of states of the same future. -/
theorem mem_refinedBlock_iff (h : a.WellFormed) (hb : b ∈ a.refinedBlocks) (hp : p ∈ b) :
    q ∈ b ↔ q ∈ a.completedStates ∧ a.SameFuture p q := by
  have hinv := invariant_refined h
  have hb := mem_refinedBlocks_iff.1 hb
  constructor
  · intro hq
    exact ⟨(hinv.covers q).2 ⟨b, hb, hq⟩, hinv.sameFuture h (not_unfinished_refined h) hb hp hq⟩
  · rintro ⟨hq, hpq⟩
    exact hinv.together b hb p hp q hq hpq

end Chomsky.Automaton
