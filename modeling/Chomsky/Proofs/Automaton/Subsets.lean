import Chomsky.Automaton.Determinization
import Chomsky.Proofs.Automaton.Walk
import Chomsky.Proofs.Data.Reachability
import Mathlib.Data.List.Sublists

/-! # The automaton of active sets

The sets listed by the subset construction are the nonempty sets of active states
(`mem_subsets_iff`). A word leads to the number of its active set (`walk?_ofSubsets`), so that
the subset construction preserves the language.
-/

namespace Chomsky

def StateSet.below (n : Nat) : List StateSet := (List.range n).sublists.map StateSet.ofList

theorem StateSet.length_below (n : Nat) : (below n).length = Nat.pow 2 n := by
  rw [below, List.length_map, List.length_sublists, List.length_range]
  exact Nat.pow_eq.symm

theorem StateSet.mem_below {n : Nat} {s : StateSet} : s ∈ below n ↔ ∀ q ∈ s, q < n := by
  constructor
  · intro h q hq
    obtain ⟨l, hl, rfl⟩ := List.mem_map.1 h
    exact List.mem_range.1 ((List.mem_sublists.1 hl).subset (StateSet.mem_ofList.1 hq))
  · intro h
    refine List.mem_map.2 ⟨(List.range n).filter (· ∈ s), ?_, ?_⟩
    · exact List.mem_sublists.2 List.filter_sublist
    · apply StateSet.ext
      intro q
      rw [StateSet.mem_ofList, List.mem_filter, List.mem_range, decide_eq_true_eq]
      exact ⟨And.right, fun hq => ⟨h q hq, hq⟩⟩

namespace Automaton

def ofSubsets (a : Automaton) (sets : Numbering a.subsetName) : Automaton where
  states := a.subsetNames sets
  alphabet := a.alphabet
  transitions := a.subsetTransitions a.targets sets
  start := 0
  accept := .ofList <|
    (sets.toList.zipIdx.filter fun (s, _) => s.intersects a.accept).map Prod.snd

variable {a d : Automaton} {s t : StateSet} {i : SymbolIndex} {x : String} {w : List String}

theorem subsetConstruction_eq_ok (h : a.subsetConstruction = .ok d) :
    ∃ sets, a.namedSubsets a.targets = .ok sets ∧ d = a.ofSubsets sets := by
  simp only [subsetConstruction, storedTargets_eq] at h
  split at h
  · cases h
  · next sets hsets =>
    cases h
    exact ⟨sets, hsets, rfl⟩

theorem exists_subsetConstruction (h : (a.subsets.map a.subsetName).Nodup) :
    ∃ d, a.subsetConstruction = .ok d := by
  simp only [subsetConstruction, storedTargets_eq]
  split
  · next s t herror => exact absurd h (firstClash_of_namedSubsets herror).not_nodup
  · exact ⟨_, rfl⟩

theorem exists_toDeterministic (h : (a.subsets.map a.subsetName).Nodup) :
    ∃ d, a.toDeterministic = .ok d := by
  unfold toDeterministic
  split
  · exact ⟨a, rfl⟩
  · exact exists_subsetConstruction h

theorem mem_subsetSuccessors_iff : t ∈ a.subsetSuccessors a.targets s ↔
    (∃ i < a.alphabet.size, a.move s i = t) ∧ ∃ q, q ∈ t := by
  have hne : (!t.isEmpty) = true ↔ ∃ q, q ∈ t := by
    rw [Bool.not_eq_true', ← Bool.not_eq_true, StateSet.isEmpty_iff]
    simp
  rw [subsetSuccessors, List.mem_filter, hne, List.mem_map]
  simp only [symbols, List.mem_range, move]

theorem start_mem_subsets : .singleton a.start ∈ a.subsets :=
  isPrefix_explore.subset List.mem_cons_self

theorem getElem?_subsets_zero : a.subsets[0]? = some (.singleton a.start) := by
  have h : [StateSet.singleton a.start] <+: a.subsets := isPrefix_explore
  exact List.prefix_iff_getElem?.1 h 0 (Nat.zero_lt_one)

theorem nodup_subsets : a.subsets.Nodup := nodup_explore (List.pairwise_singleton _ _)

theorem exists_mem_of_mem_subsets (hs : s ∈ a.subsets) :
    (∃ q, q ∈ s) ∧ ∃ w, a.activeAfter w = s := by
  replace hs := reflTransGen_of_mem_explore hs
  induction hs with
  | refl => exact ⟨⟨a.start, StateSet.mem_singleton.2 rfl⟩, [], rfl⟩
  | tail _ hstep ih =>
    obtain ⟨⟨i, hi, rfl⟩, hne⟩ := mem_subsetSuccessors_iff.1 hstep
    obtain ⟨-, w, rfl⟩ := ih
    obtain ⟨x, hx⟩ := exists_symbolIndex? hi
    refine ⟨hne, w ++ [x], ?_⟩
    rw [activeAfter_append_singleton, moveNamed_eq_move hx]

theorem not_isEmpty_of_mem_subsets (hs : s ∈ a.subsets) : ¬s.isEmpty := by
  obtain ⟨⟨q, hq⟩, -⟩ := exists_mem_of_mem_subsets hs
  exact fun h => StateSet.isEmpty_iff.1 h q hq

namespace WellFormed

variable (h : a.WellFormed)
include h

theorem lt_of_mem_move {q : StateId} (hq : q ∈ a.move s i) : q < a.states.size := by
  obtain ⟨r, -, hq⟩ := mem_move.1 hq
  exact h.lt_of_mem_targets hq

theorem subsets_closed (hs : s ∈ a.subsets) (ht : t ∈ a.subsetSuccessors a.targets s) :
    t ∈ a.subsets := by
  refine explore_start_closed (StateSet.below a.states.size) ?_ ?_ ?_ s hs t ht
  · intro s _ t ht
    obtain ⟨⟨i, -, rfl⟩, -⟩ := mem_subsetSuccessors_iff.1 ht
    exact StateSet.mem_below.2 fun q hq => h.lt_of_mem_move hq
  · apply StateSet.mem_below.2
    intro q hq
    exact StateSet.mem_singleton.1 hq ▸ h.start_lt
  · rw [StateSet.length_below]
    exact Nat.lt_succ_self _

theorem moveNamed_mem_subsets (hs : s ∈ a.subsets) (hne : ∃ q, q ∈ a.moveNamed s x) :
    a.moveNamed s x ∈ a.subsets := by
  cases hx : a.symbolIndex? x with
  | none =>
    obtain ⟨q, hq⟩ := hne
    rw [moveNamed_eq_empty hx] at hq
    exact absurd hq StateSet.not_mem_empty
  | some i =>
    rw [moveNamed_eq_move hx] at hne ⊢
    exact h.subsets_closed hs (mem_subsetSuccessors_iff.2 ⟨⟨i, symbolIndex?_lt hx, rfl⟩, hne⟩)

theorem foldl_moveNamed_mem_subsets (hs : s ∈ a.subsets) (w : List String) :
    w.foldl a.moveNamed s = ∅ ∨ w.foldl a.moveNamed s ∈ a.subsets := by
  induction w generalizing s with
  | nil => exact Or.inr hs
  | cons x w ih =>
    rw [List.foldl_cons]
    by_cases hne : ∃ q, q ∈ a.moveNamed s x
    · exact ih (h.moveNamed_mem_subsets hs hne)
    · have hempty : a.moveNamed s x = ∅ :=
        StateSet.isEmpty_iff_eq.1 (StateSet.isEmpty_iff.2 (not_exists.1 hne))
      rw [hempty, foldl_moveNamed_empty]
      exact Or.inl rfl

/-- The sets listed are the nonempty sets of active states. -/
theorem mem_subsets_iff : s ∈ a.subsets ↔ (∃ q, q ∈ s) ∧ ∃ w, a.activeAfter w = s := by
  constructor
  · exact exists_mem_of_mem_subsets
  · rintro ⟨⟨q, hq⟩, w, rfl⟩
    apply (h.foldl_moveNamed_mem_subsets start_mem_subsets w).resolve_left
    intro hempty
    rw [activeAfter, hempty] at hq
    exact StateSet.not_mem_empty hq

end WellFormed

section OfSubsets

variable {sets : Numbering a.subsetName} (hsets : sets.toList = a.subsets)

theorem toList_states_ofSubsets :
    (a.ofSubsets sets).states.toList = sets.toList.map a.subsetName :=
  Array.toList_map

theorem size_states_ofSubsets : (a.ofSubsets sets).states.size = sets.toList.length := by
  rw [← OrderedSet.length_toList, toList_states_ofSubsets, List.length_map]

theorem transitions_ofSubsets : (a.ofSubsets sets).transitions =
    .ofRows sets.toList a.alphabet.size fun s i =>
      (sets.idxOf? (a.move s i)).map StateSet.singleton := rfl

theorem targets_ofSubsets (k : StateId) (hi : i < a.alphabet.size) :
    (a.ofSubsets sets).targets k i =
      .ofOption ((sets.toList[k]?).bind fun s => sets.idxOf? (a.move s i)) :=
  targets_eq_of_ofRows transitions_ofSubsets hi

theorem isDeterministic_ofSubsets : (a.ofSubsets sets).isDeterministic :=
  isDeterministic_of_ofRows transitions_ofSubsets

theorem mem_accept_ofSubsets {k : StateId} :
    k ∈ (a.ofSubsets sets).accept ↔ ∃ s, sets.toList[k]? = some s ∧ s.intersects a.accept := by
  simp only [ofSubsets, StateSet.mem_ofList, List.mem_map, List.mem_filter,
    List.mem_zipIdx_iff_getElem?, Prod.exists, exists_eq_right]

include hsets

theorem idxOf?_empty : sets.idxOf? ∅ = none := by
  apply Option.eq_none_iff_forall_ne_some.2
  intro k hk
  have hmem := List.mem_of_getElem? (Numbering.idxOf?_eq_some_iff.1 hk)
  rw [hsets] at hmem
  exact not_isEmpty_of_mem_subsets hmem rfl

theorem exists_idxOf?_eq (hs : s ∈ a.subsets) : ∃ k, sets.idxOf? s = some k := by
  rw [← hsets] at hs
  obtain ⟨k, hk⟩ := List.mem_iff_getElem?.1 hs
  exact ⟨k, Numbering.idxOf?_eq_some_iff.2 hk⟩

theorem idxOf?_start : sets.idxOf? (.singleton a.start) = some 0 := by
  rw [Numbering.idxOf?_eq_some_iff, hsets, getElem?_subsets_zero]

theorem step?_ofSubsets (hs : s = ∅ ∨ s ∈ a.subsets) (x : String) :
    (a.ofSubsets sets).step? (a.ofSubsets sets).targets (sets.idxOf? s) x =
      sets.idxOf? (a.moveNamed s x) := by
  rcases hs with rfl | hs
  · rw [idxOf?_empty hsets, step?_none, moveNamed_empty, idxOf?_empty hsets]
  · obtain ⟨k, hk⟩ := exists_idxOf?_eq hsets hs
    rw [step?_eq, show (a.ofSubsets sets).symbolIndex? x = a.symbolIndex? x from rfl]
    cases hx : a.symbolIndex? x with
    | none => rw [moveNamed_eq_empty hx, idxOf?_empty hsets, Option.bind_none]
    | some i =>
      rw [hk, Option.bind_some, Option.bind_some, targets_ofSubsets k (symbolIndex?_lt hx),
        StateSet.least?_ofOption, Numbering.idxOf?_eq_some_iff.1 hk, Option.bind_some,
        moveNamed_eq_move hx]

/-- A word leads to the number of its active set, if there is one. -/
theorem walk?_ofSubsets (h : a.WellFormed) (w : List String) :
    (a.ofSubsets sets).walk? (some 0) w = sets.idxOf? (a.activeAfter w) := by
  have hwalk : ∀ s, s ∈ a.subsets → (a.ofSubsets sets).walk? (sets.idxOf? s) w =
      sets.idxOf? (w.foldl a.moveNamed s) := by
    induction w with
    | nil => exact fun s _ => rfl
    | cons x w ih =>
      intro s hs
      rw [walk?, List.foldl_cons, step?_ofSubsets hsets (Or.inr hs), ← walk?, List.foldl_cons]
      rcases h.foldl_moveNamed_mem_subsets hs [x] with hempty | hmem
      · rw [show a.moveNamed s x = ∅ from hempty, idxOf?_empty hsets, walk?_none,
          foldl_moveNamed_empty, idxOf?_empty hsets]
      · exact ih _ hmem
  rw [← idxOf?_start hsets]
  exact hwalk _ start_mem_subsets

theorem acceptsAt_ofSubsets (hs : s = ∅ ∨ s ∈ a.subsets) :
    (a.ofSubsets sets).acceptsAt (sets.idxOf? s) = s.intersects a.accept := by
  rcases hs with rfl | hs
  · rw [idxOf?_empty hsets]
    rfl
  · obtain ⟨k, hk⟩ := exists_idxOf?_eq hsets hs
    have hget := Numbering.idxOf?_eq_some_iff.1 hk
    rw [hk, acceptsAt, Option.any_some, Bool.eq_iff_iff, decide_eq_true_eq, mem_accept_ofSubsets,
      hget]
    simp

theorem accepts_ofSubsets (h : a.WellFormed) (w : List String) :
    (a.ofSubsets sets).accepts w = a.accepts w := by
  rw [accepts_eq_acceptsAt isDeterministic_ofSubsets,
    show (a.ofSubsets sets).start = 0 from rfl, walk?_ofSubsets hsets h, accepts_eq]
  exact acceptsAt_ofSubsets hsets (h.foldl_moveNamed_mem_subsets start_mem_subsets w)

theorem wellFormed_ofSubsets : (a.ofSubsets sets).WellFormed where
  start_lt := by
    rw [size_states_ofSubsets, hsets]
    exact List.length_pos_of_mem start_mem_subsets
  accept_lt k hk := by
    obtain ⟨s, hs, -⟩ := mem_accept_ofSubsets.1 hk
    rw [size_states_ofSubsets]
    exact (List.getElem?_eq_some_iff.1 hs).1
  transitions := by
    rw [size_states_ofSubsets]
    apply Transitions.within_ofRows sets.toList fun s i => sets.idxOf? (a.targets.move s i)
    intro s _ i k hk
    exact (List.getElem?_eq_some_iff.1 (Numbering.idxOf?_eq_some_iff.1 hk)).1

end OfSubsets

theorem wellFormed_subsetConstruction (h : a.subsetConstruction = .ok d) : d.WellFormed := by
  obtain ⟨sets, hsets, rfl⟩ := subsetConstruction_eq_ok h
  exact wellFormed_ofSubsets (toList_of_namedSubsets hsets)

theorem WellFormed.toDeterministic (ha : a.WellFormed) (h : a.toDeterministic = .ok d) :
    d.WellFormed := by
  unfold Automaton.toDeterministic at h
  split at h
  · cases h
    exact ha
  · exact wellFormed_subsetConstruction h

end Automaton
end Chomsky
