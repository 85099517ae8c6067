import Chomsky.Proofs.Automaton.Pairs
import Chomsky.Proofs.Obtainable
import Mathlib

/-! # Operations on automata and their languages

The subset construction, the search for an equivalent automaton with the least number of states,
and the test for equivalence, stated for all automata that can be obtained.
-/

namespace Chomsky.Automaton

variable {a b d e m : Automaton} {s : StateSet} {k : Nat} {w : List String}

theorem activeAfter_eq_iff : a.activeAfter w = s ↔ ∀ q, q ∈ s ↔ a.Run a.start w q := by
  simp only [← mem_activeAfter_iff, StateSet.ext_iff (s := a.activeAfter w)]
  exact ⟨fun h q => (h q).symm, fun h q => (h q).symm⟩

/-- The set that a state of the subset construction stands for. -/
def activeSet (a : Automaton) (k : StateId) : StateSet := (a.subsets[k]?).getD ∅

section Subsets

variable {sets : Numbering a.subsetName} (hsets : sets.toList = a.subsets)
include hsets

theorem getElem?_subsets (hk : k < (a.ofSubsets sets).states.size) :
    a.subsets[k]? = some (a.activeSet k) := by
  rw [size_states_ofSubsets, hsets] at hk
  rw [activeSet, List.getElem?_eq_getElem hk, Option.getD_some]

/-- A word leads to the state that stands for the set of states to which it leads. -/
theorem run_ofSubsets_iff (ha : a.WellFormed) (hk : k < (a.ofSubsets sets).states.size) :
    (a.ofSubsets sets).Run (a.ofSubsets sets).start w k ↔ a.activeAfter w = a.activeSet k := by
  rw [run_start_iff isDeterministic_ofSubsets, show (a.ofSubsets sets).start = 0 from rfl,
    walk?_ofSubsets hsets ha, Numbering.idxOf?_eq_some_iff, hsets, getElem?_subsets hsets hk,
    Option.some.injEq, eq_comm]

/-- Every nonempty set to which a word leads has one state that stands for it. -/
theorem bijOn_activeSet (ha : a.WellFormed) :
    Set.BijOn a.activeSet {k | k < (a.ofSubsets sets).states.size}
      {s | (∃ q, q ∈ s) ∧ ∃ w, a.activeAfter w = s} := by
  have hsize : (a.ofSubsets sets).states.size = a.subsets.length := by
    rw [size_states_ofSubsets, hsets]
  refine ⟨?_, ?_, ?_⟩
  · intro k hk
    exact ha.mem_subsets_iff.1 (List.mem_of_getElem? (getElem?_subsets hsets hk))
  · intro k hk l hl heq
    have hkl := getElem?_subsets hsets hk
    rw [heq, ← getElem?_subsets hsets hl] at hkl
    exact (List.getElem?_inj (hsize ▸ hk) nodup_subsets).1 hkl
  · intro s hs
    obtain ⟨k, hk⟩ := List.mem_iff_getElem?.1 (ha.mem_subsets_iff.2 hs)
    refine ⟨k, hsize ▸ (List.getElem?_eq_some_iff.1 hk).1, ?_⟩
    rw [activeSet, hk, Option.getD_some]

end Subsets

/-- The subset construction yields a deterministic automaton over the same alphabet. Its states
are the nonempty sets of states to which words lead, each of them once, and it accepts the same
words. -/
theorem subsetConstruction_spec (ha : a.Obtainable) (h : a.subsetConstruction = .ok d) :
    d.isDeterministic ∧ d.alphabet = a.alphabet ∧
      (∃ f : StateId → StateSet,
        Set.BijOn f {k | k < d.states.size}
          {s | (∃ q, q ∈ s) ∧ ∃ w, ∀ q, q ∈ s ↔ a.Run a.start w q} ∧
        ∀ k < d.states.size, ∀ w, d.Run d.start w k ↔ ∀ q, q ∈ f k ↔ a.Run a.start w q) ∧
      (∀ k < d.states.size, ∃ w, d.Run d.start w k) ∧
      ∀ w, d.accepts w = a.accepts w := by
  have hwf := ha.wellFormed
  obtain ⟨sets, hnamed, rfl⟩ := subsetConstruction_eq_ok h
  have hsets := toList_of_namedSubsets hnamed
  have hbij := bijOn_activeSet hsets hwf
  simp only [← activeAfter_eq_iff]
  refine ⟨isDeterministic_ofSubsets, rfl, ⟨a.activeSet, hbij, ?_⟩, ?_, accepts_ofSubsets hsets hwf⟩
  · intro k hk w
    exact run_ofSubsets_iff hsets hwf hk
  · intro k hk
    obtain ⟨-, w, hw⟩ := hbij.mapsTo hk
    exact ⟨w, (run_ofSubsets_iff hsets hwf hk).2 hw⟩

/-- Guess the last letter of the words that end in `a`. -/
def endsInA : AutomatonDefinition where
  transitions := [("p", "a", "p"), ("p", "b", "p"), ("p", "a", "q")]
  start := some "p"
  accept := ["q"]

theorem names_endsInA :
    endsInA.build.map (fun a => a.subsets.map a.subsetName) = .ok ["p", "pq"] := by
  cbv

theorem subsetConstruction_spec_endsInA : ∃ a d, endsInA.build = .ok a ∧
    a.subsetConstruction = .ok d ∧ d.isDeterministic ∧ d.alphabet = a.alphabet ∧
      ∀ w, d.accepts w = a.accepts w := by
  obtain ⟨a, ha, hnames⟩ := map_eq_ok_iff.1 names_endsInA
  obtain ⟨d, hd⟩ := exists_subsetConstruction (a := a) (hnames ▸ by decide)
  obtain ⟨hdet, halphabet, -, -, haccepts⟩ := subsetConstruction_spec (.build ha) hd
  exact ⟨a, d, ha, hd, hdet, halphabet, haccepts⟩

theorem toDeterministic_eq_ok (ha : a.WellFormed) (h : a.toDeterministic = .ok d) :
    d.WellFormed ∧ d.isDeterministic ∧ ∀ w, d.accepts w = a.accepts w := by
  refine ⟨ha.toDeterministic h, ?_⟩
  unfold toDeterministic at h
  split at h
  · next hdet =>
    cases h
    exact ⟨hdet, fun w => rfl⟩
  · obtain ⟨sets, hnamed, rfl⟩ := subsetConstruction_eq_ok h
    exact ⟨isDeterministic_ofSubsets, accepts_ofSubsets (toList_of_namedSubsets hnamed) ha⟩

/-- The test for equivalence decides whether the same words are accepted. It fails if one of the
two automata cannot be made deterministic, for the reason of the first that cannot. -/
theorem equivalent_spec (ha : a.Obtainable) (hb : b.Obtainable) :
    (∀ d e, a.toDeterministic = .ok d → b.toDeterministic = .ok e →
      ∃ r, a.equivalent b = .ok r ∧ (r = true ↔ ∀ w, a.accepts w = b.accepts w)) ∧
    (∀ cause, a.toDeterministic = .error cause → a.equivalent b = .error cause) ∧
    (∀ d cause, a.toDeterministic = .ok d → b.toDeterministic = .error cause →
      a.equivalent b = .error cause) := by
  refine ⟨fun d e hd he => ?_, fun cause hcause => ?_, fun d cause hd hcause => ?_⟩
  · obtain ⟨hdwf, hddet, hdaccepts⟩ := toDeterministic_eq_ok ha.wellFormed hd
    obtain ⟨hewf, hedet, heaccepts⟩ := toDeterministic_eq_ok hb.wellFormed he
    refine ⟨d.agreesOnWords e, ?_, ?_⟩
    · rw [equivalent, hd, he]
      rfl
    · rw [agreesOnWords_iff hdwf hewf hddet hedet]
      simp only [hdaccepts, heaccepts]
  · rw [equivalent, hcause]
    rfl
  · rw [equivalent, hd, hcause]
    rfl

/-- Remember whether the last letter was an `a`. -/
def remembersA : AutomatonDefinition where
  transitions := [("n", "a", "y"), ("n", "b", "n"), ("y", "a", "y"), ("y", "b", "n")]
  start := some "n"
  accept := ["y"]

theorem names_remembersA :
    remembersA.build.map (fun b => b.subsets.map b.subsetName) = .ok ["n", "y"] := by
  cbv

theorem equivalent_spec_endsInA : ∃ a b r, endsInA.build = .ok a ∧ remembersA.build = .ok b ∧
    a.equivalent b = .ok r ∧ (r = true ↔ ∀ w, a.accepts w = b.accepts w) := by
  obtain ⟨a, ha, hnames⟩ := map_eq_ok_iff.1 names_endsInA
  obtain ⟨b, hb, hnames'⟩ := map_eq_ok_iff.1 names_remembersA
  obtain ⟨d, hd⟩ := exists_toDeterministic (a := a) (hnames ▸ by decide)
  obtain ⟨e, he⟩ := exists_toDeterministic (a := b) (hnames' ▸ by decide)
  obtain ⟨r, hr, hiff⟩ := (equivalent_spec (.build ha) (.build hb)).1 d e hd he
  exact ⟨a, b, r, ha, hb, hr, hiff⟩

/-- The least automaton is deterministic, accepts the same words, and has no more states than any
deterministic automaton that does. -/
theorem minimize_spec (ha : a.Obtainable) (h : a.minimize = .ok m) :
    m.isDeterministic ∧ (∀ w, m.accepts w = a.accepts w) ∧
      ∀ d : Automaton, d.WellFormed → d.isDeterministic → (∀ w, d.accepts w = a.accepts w) →
        m.states.size ≤ d.states.size := by
  obtain ⟨c, hc, rfl⟩ := map_eq_ok_iff.1 h
  obtain ⟨hwf, hdet, haccepts⟩ := toDeterministic_eq_ok ha.wellFormed hc
  refine ⟨isDeterministic_merged, fun w => ?_, fun d hd hddet hlang => ?_⟩
  · rw [accepts_merged hwf hdet, haccepts]
  · refine size_states_merged_le hwf hdet hddet (fun w => ?_) hd
    rw [hlang, haccepts]

theorem minimize_spec_endsInA : ∃ a d m, endsInA.build = .ok a ∧ a.toDeterministic = .ok d ∧
    a.minimize = .ok m ∧ m.isDeterministic ∧ (∀ w, m.accepts w = a.accepts w) ∧
      m.states.size ≤ d.states.size := by
  obtain ⟨a, ha, hnames⟩ := map_eq_ok_iff.1 names_endsInA
  obtain ⟨d, hd⟩ := exists_toDeterministic (a := a) (hnames ▸ by decide)
  have hm : a.minimize = .ok d.merged := map_eq_ok_iff.2 ⟨d, hd, rfl⟩
  obtain ⟨hdet, haccepts, hleast⟩ := minimize_spec (.build ha) hm
  obtain ⟨hdwf, hddet, hdaccepts⟩ :=
    toDeterministic_eq_ok (AutomatonDefinition.wellFormed_of_build ha) hd
  exact ⟨a, d, d.merged, ha, hd, hm, hdet, haccepts, hleast d hdwf hddet hdaccepts⟩

end Chomsky.Automaton
