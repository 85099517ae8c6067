import Chomsky.Proofs.Automaton.Language
import Chomsky.Proofs.Automaton.Tabular
import Mathlib

/-! # Determinizing deterministic automata

In a deterministic automaton words lead to single states, and the subset construction renumbers the
states to which words lead in the order in which it discovers them
(`mem_subsets_iff_of_isDeterministic`). In a result of the subset construction they are discovered
in the order of their numbers (`subsets_ofSubsets`), so that the construction changes nothing when
it is done again (`subsetConstruction_eq_self`).
-/

namespace Chomsky.Automaton

variable {a d : Automaton} {s t : StateSet} {i : SymbolIndex} {k : Nat} {q r : StateId}

theorem move_singleton : a.move (.singleton q) i = a.targets q i := by
  refine StateSet.ext fun r => mem_move.trans ?_
  simp

theorem subsetName_singleton : a.subsetName (.singleton q) = a.stateName q := by
  simp [subsetName, StateSet.singleton]

section Deterministic

variable (h : a.WellFormed) (hdet : a.isDeterministic)
include h hdet

/-- The sets to which words lead are those of single states. -/
theorem mem_subsets_iff_of_isDeterministic :
    s ∈ a.subsets ↔ ∃ q, a.Reachable q ∧ s = .singleton q := by
  rw [h.mem_subsets_iff]
  constructor
  · rintro ⟨⟨q, hq⟩, w, rfl⟩
    have hrun := mem_activeAfter_iff.1 hq
    rw [activeAfter_eq_ofOption hdet, (run_start_iff hdet).1 hrun]
    exact ⟨q, ⟨w, hrun⟩, rfl⟩
  · rintro ⟨q, ⟨w, hrun⟩, rfl⟩
    refine ⟨⟨q, StateSet.mem_singleton.2 rfl⟩, w, ?_⟩
    rw [activeAfter_eq_ofOption hdet, (run_start_iff hdet).1 hrun]
    rfl

theorem nodup_subsetNames_of_isDeterministic : (a.subsets.map a.subsetName).Nodup := by
  refine List.Nodup.map_on (fun s hs t ht hname => ?_) nodup_subsets
  obtain ⟨q, hq, rfl⟩ := (mem_subsets_iff_of_isDeterministic h hdet).1 hs
  obtain ⟨r, hr, rfl⟩ := (mem_subsets_iff_of_isDeterministic h hdet).1 ht
  rw [subsetName_singleton, subsetName_singleton] at hname
  rw [stateName_injective (h.lt_of_reachable hq) (h.lt_of_reachable hr) hname]

variable {sets : Numbering a.subsetName} (hsets : sets.toList = a.subsets)
include hsets

omit h in
theorem targets_ofSubsets_of_singleton (hk : sets.toList[k]? = some (.singleton q))
    (hi : i < a.alphabet.size) : (a.ofSubsets sets).targets k i =
      .ofOption ((a.targets q i).least?.bind fun r => sets.idxOf? (.singleton r)) := by
  rw [targets_ofSubsets k hi, hk, Option.bind_some, move_singleton, targets_eq_ofOption hdet q i,
    StateSet.least?_ofOption]
  cases (a.targets q i).least? with
  | none => exact congrArg StateSet.ofOption (idxOf?_empty hsets)
  | some r => rfl

theorem mem_states_ofSubsets_iff {x : String} :
    x ∈ (a.ofSubsets sets).states ↔ ∃ q, a.Reachable q ∧ a.stateName q = x := by
  rw [OrderedSet.mem_def, toList_states_ofSubsets, hsets, List.mem_map]
  constructor
  · rintro ⟨s, hs, rfl⟩
    obtain ⟨q, hq, rfl⟩ := (mem_subsets_iff_of_isDeterministic h hdet).1 hs
    exact ⟨q, hq, subsetName_singleton.symm⟩
  · rintro ⟨q, hq, rfl⟩
    exact ⟨_, (mem_subsets_iff_of_isDeterministic h hdet).2 ⟨q, hq, rfl⟩, subsetName_singleton⟩

omit h hdet hsets in
theorem stateName?_ofSubsets (hk : sets.toList[k]? = some (.singleton q)) :
    (a.ofSubsets sets).stateName? k = some (a.stateName q) := by
  rw [stateName?, ← OrderedSet.getElem?_toList, toList_states_ofSubsets, List.getElem?_map, hk,
    Option.map_some, subsetName_singleton]

omit h hdet hsets in
theorem stateName_ofSubsets (hk : sets.toList[k]? = some (.singleton q)) :
    (a.ofSubsets sets).stateName k = a.stateName q := by
  rw [stateName, stateName?_ofSubsets hk, Option.getD_some]

omit h hdet in
theorem startName_ofSubsets : (a.ofSubsets sets).startName = a.startName :=
  stateName_ofSubsets (k := 0) (hsets ▸ getElem?_subsets_zero)

theorem exists_place_of_reachable (hq : a.Reachable q) : ∃ k,
    sets.toList[k]? = some (.singleton q) ∧
      (a.ofSubsets sets).stateId? (a.stateName q) = some k := by
  have hmem := (mem_subsets_iff_of_isDeterministic h hdet).2 ⟨q, hq, rfl⟩
  obtain ⟨k, hk⟩ := List.mem_iff_getElem?.1 (hsets ▸ hmem)
  exact ⟨k, hk, OrderedSet.get?_idxOf?_iff.2 (stateName?_ofSubsets hk)⟩

theorem targetsNamed_ofSubsets (hq : a.Reachable q) (x : String) :
    (a.ofSubsets sets).targetsNamed (a.stateName q) x = a.targetsNamed (a.stateName q) x := by
  obtain ⟨k, hk, hid⟩ := exists_place_of_reachable h hdet hsets hq
  rw [targetsNamed, targetsNamed, hid, stateId?_stateName (h.lt_of_reachable hq),
    show (a.ofSubsets sets).symbolIndex? x = a.symbolIndex? x from rfl]
  cases hx : a.symbolIndex? x with
  | none => rfl
  | some i =>
    show ((a.ofSubsets sets).targets k i).toList.map _ = (a.targets q i).toList.map _
    rw [targets_ofSubsets_of_singleton hdet hsets hk (symbolIndex?_lt hx),
      targets_eq_ofOption hdet q i, StateSet.least?_ofOption]
    cases hleast : (a.targets q i).least? with
    | none => rfl
    | some r =>
      have hr := h.reachable_of_mem_targets hq (StateSet.mem_of_least? hleast)
      obtain ⟨l, hl, -⟩ := exists_place_of_reachable h hdet hsets hr
      rw [Option.bind_some, Numbering.idxOf?_eq_some_iff.2 hl]
      exact congrArg (fun name => [name]) (stateName_ofSubsets hl)

theorem isAccepting_ofSubsets (hq : a.Reachable q) :
    (a.ofSubsets sets).isAccepting (a.stateName q) = a.isAccepting (a.stateName q) := by
  obtain ⟨k, hk, hid⟩ := exists_place_of_reachable h hdet hsets hq
  rw [isAccepting, isAccepting, hid, stateId?_stateName (h.lt_of_reachable hq)]
  refine decide_eq_decide.2 (mem_accept_ofSubsets.trans ?_)
  simp [hk, StateSet.intersects_iff]

end Deterministic

section Numbers

variable {sets : Numbering a.subsetName}

/-- The set of the number of a set, empty if it has none. -/
def numberSet (sets : Numbering a.subsetName) (s : StateSet) : StateSet :=
  .ofOption (sets.idxOf? s)

variable (h : a.WellFormed) (hsets : sets.toList = a.subsets)
include hsets

theorem exists_numberSet_eq (hs : s ∈ a.subsets) :
    ∃ k, sets.toList[k]? = some s ∧ numberSet sets s = .singleton k := by
  obtain ⟨k, hk⟩ := exists_idxOf?_eq hsets hs
  exact ⟨k, Numbering.idxOf?_eq_some_iff.1 hk, by rw [numberSet, hk]; rfl⟩

theorem numberSet_injOn (hs : s ∈ a.subsets) (ht : t ∈ a.subsets)
    (heq : numberSet sets s = numberSet sets t) : s = t := by
  obtain ⟨k, hk, hks⟩ := exists_numberSet_eq hsets hs
  obtain ⟨l, hl, hlt⟩ := exists_numberSet_eq hsets ht
  have hkl : k ∈ StateSet.singleton l := hlt ▸ heq ▸ hks ▸ StateSet.mem_singleton.2 rfl
  obtain rfl := StateSet.mem_singleton.1 hkl
  exact Option.some.inj (hk.symm.trans hl)

theorem move_numberSet (hs : s ∈ a.subsets) (hi : i < a.alphabet.size) :
    (a.ofSubsets sets).move (numberSet sets s) i = numberSet sets (a.move s i) := by
  obtain ⟨k, hk, hks⟩ := exists_numberSet_eq hsets hs
  rw [hks, move_singleton, targets_ofSubsets k hi, hk, Option.bind_some, numberSet]

include h

theorem isEmpty_numberSet_move (hs : s ∈ a.subsets) (hi : i < a.alphabet.size) :
    (numberSet sets (a.move s i)).isEmpty = (a.move s i).isEmpty := by
  by_cases hempty : (a.move s i).isEmpty
  · rw [StateSet.isEmpty_iff_eq.1 hempty, numberSet, idxOf?_empty hsets]
    rfl
  · have hne := exists_mem_of_not_isEmpty hempty
    have hmem := h.subsets_closed hs (mem_subsetSuccessors_iff.2 ⟨⟨i, hi, rfl⟩, hne⟩)
    obtain ⟨k, -, hk⟩ := exists_numberSet_eq hsets hmem
    rw [hk, Bool.eq_false_iff.2 hempty]
    rfl

theorem subsetSuccessors_numberSet (hs : s ∈ a.subsets) :
    (a.ofSubsets sets).subsetSuccessors (a.ofSubsets sets).targets (numberSet sets s) =
      (a.subsetSuccessors a.targets s).map (numberSet sets) := by
  have hmoves : a.symbols.map ((a.ofSubsets sets).move (numberSet sets s)) =
      (a.symbols.map (a.move s)).map (numberSet sets) := by
    rw [List.map_map]
    exact List.map_congr_left fun i hi => move_numberSet hsets hs (List.mem_range.1 hi)
  show (a.symbols.map ((a.ofSubsets sets).move (numberSet sets s))).filter (!·.isEmpty) =
    ((a.symbols.map (a.move s)).filter (!·.isEmpty)).map (numberSet sets)
  rw [hmoves, List.filter_map]
  congr 1
  refine List.filter_congr fun t ht => ?_
  obtain ⟨i, hi, rfl⟩ := List.mem_map.1 ht
  exact congrArg (!·) (isEmpty_numberSet_move h hsets hs (List.mem_range.1 hi))

omit hsets in
theorem length_subsets_le : a.subsets.length ≤ Nat.pow 2 a.states.size := by
  rw [← StateSet.length_below]
  refine length_le_of_nodup nodup_subsets fun s hs => StateSet.mem_below.2 ?_
  obtain ⟨-, w, rfl⟩ := exists_mem_of_mem_subsets hs
  exact fun q hq => h.lt_of_run (mem_activeAfter_iff.1 hq) h.start_lt

omit hsets h in
theorem forall_mem_start_subsets : ∀ s ∈ [StateSet.singleton a.start], s ∈ a.subsets := fun _ hs =>
  List.mem_singleton.1 hs ▸ start_mem_subsets

omit hsets in
/-- There is enough fuel as soon as there is more than there are sets to which words lead. -/
theorem subsets_eq_explore {fuel : Nat} (hfuel : a.subsets.length < fuel) :
    a.subsets = explore (a.subsetSuccessors a.targets) fuel [.singleton a.start]
      [.singleton a.start] := by
  refine explore_eq_of_enough (fun s hs t ht => h.subsets_closed hs ht) (List.nodup_singleton _)
    forall_mem_start_subsets forall_mem_start_subsets ?_ ?_
  · exact Nat.succ_lt_succ (Nat.lt_succ_of_le (length_subsets_le h))
  · exact Nat.succ_lt_succ hfuel

theorem subsets_ofSubsets_eq_map : (a.ofSubsets sets).subsets = a.subsets.map (numberSet sets) := by
  have hfuel : a.subsets.length < Nat.pow 2 (a.ofSubsets sets).states.size + 1 := by
    rw [size_states_ofSubsets, hsets]
    exact Nat.lt_succ_of_lt Nat.lt_two_pow_self
  have hzero : numberSet sets (.singleton a.start) = .singleton 0 :=
    congrArg StateSet.ofOption (idxOf?_start hsets)
  rw [subsets_eq_explore h hfuel, ← explore_map (fun s hs t ht => h.subsets_closed hs ht)
    (fun s => subsetSuccessors_numberSet h hsets) (fun s hs t ht => numberSet_injOn hsets hs ht)
    forall_mem_start_subsets forall_mem_start_subsets, List.map_singleton, hzero]
  rfl

theorem subsets_ofSubsets : (a.ofSubsets sets).subsets =
    (List.range (a.ofSubsets sets).states.size).map StateSet.singleton := by
  rw [subsets_ofSubsets_eq_map h hsets, size_states_ofSubsets, hsets]
  refine List.ext_getElem (by simp) fun k hk hk' => ?_
  rw [List.length_map] at hk
  obtain ⟨l, hl, hnumber⟩ := exists_numberSet_eq hsets (List.getElem_mem hk)
  rw [List.getElem_map, List.getElem_map, List.getElem_range, hnumber]
  obtain ⟨hlt, heq⟩ := List.getElem?_eq_some_iff.1 (hsets ▸ hl)
  rw [(List.Nodup.getElem_inj_iff nodup_subsets).1 heq]

end Numbers

/-- An automaton is the result of its own subset construction if its states are discovered in their
order. -/
theorem subsetConstruction_eq_self (h : a.WellFormed) (hdet : a.isDeterministic) (htab : a.Tabular)
    (hstart : a.start = 0)
    (hsubsets : a.subsets = (List.range a.states.size).map StateSet.singleton) :
    a.subsetConstruction = .ok a := by
  obtain ⟨d, hd⟩ := exists_subsetConstruction (nodup_subsetNames_of_isDeterministic h hdet)
  obtain ⟨sets, hnamed, rfl⟩ := subsetConstruction_eq_ok hd
  have hsets := toList_of_namedSubsets hnamed
  have hget : ∀ {k s}, sets.toList[k]? = some s ↔ k < a.states.size ∧ s = .singleton k := by
    intro k s
    rw [hsets, hsubsets, List.getElem?_eq_some_iff]
    simp [eq_comm]
  suffices heq : a.ofSubsets sets = a by rw [hd, heq]
  refine tabular_ofSubsets.eq htab (OrderedSet.ext ?_) rfl hstart.symm (StateSet.ext fun k => ?_)
    fun q hq i hi => ?_
  · rw [toList_states_ofSubsets, hsets, hsubsets, List.map_map, ← map_stateName_range]
    exact List.map_congr_left fun q _ => subsetName_singleton
  · rw [mem_accept_ofSubsets]
    constructor
    · rintro ⟨s, hs, hacc⟩
      obtain ⟨-, rfl⟩ := hget.1 hs
      simpa [StateSet.intersects_iff] using hacc
    · intro hk
      exact ⟨_, hget.2 ⟨h.accept_lt k hk, rfl⟩, by simpa [StateSet.intersects_iff] using hk⟩
  · rw [targets_ofSubsets_of_singleton hdet hsets (hget.2 ⟨hq, rfl⟩) hi,
      targets_eq_ofOption hdet q i, StateSet.least?_ofOption]
    cases hleast : (a.targets q i).least? with
    | none => rfl
    | some r =>
      have hr := h.lt_of_mem_targets (StateSet.mem_of_least? hleast)
      rw [Option.bind_some, Numbering.idxOf?_eq_some_iff.2 (hget.2 ⟨hr, rfl⟩)]

/-- The subset construction of a deterministic automaton, in place of which the automaton itself is
taken where a deterministic one is needed, has the names of the states to which words lead, and for
each of them the same targets and the same acceptance as the automaton. Done again on what it
yields, the subset construction yields the very same automaton, in which states, symbols and
transitions have the same order. -/
theorem subsetConstruction_of_deterministic (ha : a.Obtainable) :
    (a.isDeterministic → a.toDeterministic = .ok a ∧ ∃ d, a.subsetConstruction = .ok d ∧
      (∀ x, x ∈ d.states ↔ ∃ q, a.Reachable q ∧ a.stateName q = x) ∧
      d.startName = a.startName ∧ d.alphabet = a.alphabet ∧
      ∀ q, a.Reachable q →
        (∀ x, d.targetsNamed (a.stateName q) x = a.targetsNamed (a.stateName q) x) ∧
          d.isAccepting (a.stateName q) = a.isAccepting (a.stateName q)) ∧
    ∀ d, a.subsetConstruction = .ok d → d.subsetConstruction = .ok d := by
  have hwf := ha.wellFormed
  refine ⟨fun hdet => ⟨if_pos hdet, ?_⟩, fun d hd => ?_⟩
  · obtain ⟨d, hd⟩ := exists_subsetConstruction (nodup_subsetNames_of_isDeterministic hwf hdet)
    obtain ⟨sets, hnamed, rfl⟩ := subsetConstruction_eq_ok hd
    have hsets := toList_of_namedSubsets hnamed
    exact ⟨_, hd, fun x => mem_states_ofSubsets_iff hwf hdet hsets, startName_ofSubsets hsets, rfl,
      fun q hq => ⟨targetsNamed_ofSubsets hwf hdet hsets hq,
        isAccepting_ofSubsets hwf hdet hsets hq⟩⟩
  · obtain ⟨sets, hnamed, rfl⟩ := subsetConstruction_eq_ok hd
    have hsets := toList_of_namedSubsets hnamed
    exact subsetConstruction_eq_self (wellFormed_ofSubsets hsets) isDeterministic_ofSubsets
      tabular_ofSubsets rfl (subsets_ofSubsets hwf hsets)

/-- The states are not in the order in which words lead to them, and to `u` no word leads. -/
def scrambled : AutomatonDefinition where
  states := some ["t", "u", "s"]
  transitions := [("u", "a", "t"), ("s", "b", "t"), ("s", "a", "s")]
  start := some "s"
  accept := ["t", "u"]

theorem isDeterministic_scrambled : scrambled.build.map isDeterministic = .ok true := by
  decide +kernel

theorem subsetConstruction_of_deterministic_scrambled : ∃ a d, scrambled.build = .ok a ∧
    a.toDeterministic = .ok a ∧ a.subsetConstruction = .ok d ∧
      (∀ x, x ∈ d.states ↔ ∃ q, a.Reachable q ∧ a.stateName q = x) ∧
      d.targetsNamed "s" "b" = ["t"] ∧ d.subsetConstruction = .ok d := by
  obtain ⟨a, ha, hdet⟩ := map_eq_ok_iff.1 isDeterministic_scrambled
  obtain ⟨hfirst, hagain⟩ := subsetConstruction_of_deterministic (.build ha)
  obtain ⟨hself, d, hd, hnames, -, -, hstates⟩ := hfirst hdet
  have hs : a.stateName a.start = "s" ∧ a.targetsNamed "s" "b" = ["t"] := by
    cases ha
    constructor <;> cbv
  have htargets := (hstates a.start reachable_start).1 "b"
  rw [hs.1, hs.2] at htargets
  exact ⟨a, d, ha, hself, hd, hnames, htargets, hagain d hd⟩

end Chomsky.Automaton
