import Chomsky.Proofs.Automaton.Minimal
import Chomsky.Proofs.Automaton.Subsets
import Mathlib.Data.List.Basic

/-! # Transitions in the order of a table

The subset construction and minimization list the transitions by their sources and, for one source,
by their symbols. Automata of this kind are equal if they have the same names and targets
(`Tabular.eq`), since nothing is left of the order in which transitions were added.
-/

namespace Chomsky

theorem OrderedMap.ofRows_eq_ofRows {α : Type u} {β : Type v} {ν : Type w} {rows : List α}
    {rows' : List β} {columns : Nat} {f : α → Nat → Option ν} {f' : β → Nat → Option ν}
    (hlength : rows.length = rows'.length)
    (h : ∀ (k : Nat) a b, rows[k]? = some a → rows'[k]? = some b → ∀ i < columns, f a i = f' b i) :
    ofRows rows columns f = ofRows rows' columns f' := by
  refine ext ?_
  rw [entries_ofRows, entries_ofRows, List.flatMap_def, List.flatMap_def]
  congr 1
  refine List.ext_getElem (by simpa using hlength) fun k hk hk' => ?_
  simp only [List.getElem_map, List.getElem_zipIdx, Nat.zero_add]
  simp only [List.length_map, List.length_zipIdx] at hk hk'
  refine List.filterMap_congr fun i hi => ?_
  rw [h k _ _ (List.getElem?_eq_getElem hk) (List.getElem?_eq_getElem hk') i (List.mem_range.1 hi)]

namespace Automaton

/-- The transitions are single targets in the order of their sources and symbols. -/
def Tabular (a : Automaton) : Prop :=
  a.transitions = .ofRows (List.range a.states.size) a.alphabet.size fun q i =>
    (a.targets q i).least?.map StateSet.singleton

variable {a b : Automaton} {q : StateId} {i : SymbolIndex}

theorem tabular_of_ofRows {α : Type} {rows : List α} {f : α → SymbolIndex → Option StateId}
    (h : a.transitions = .ofRows rows a.alphabet.size fun row i => (f row i).map StateSet.singleton)
    (hrows : rows.length = a.states.size) : a.Tabular := by
  refine h.trans (OrderedMap.ofRows_eq_ofRows (by simpa using hrows) ?_)
  intro k row q hrow hq i hi
  obtain rfl : k = q := by
    obtain ⟨hk, rfl⟩ := List.getElem?_eq_some_iff.1 hq
    exact (List.getElem_range _).symm
  rw [targets_eq_of_ofRows h hi, hrow, StateSet.least?_ofOption, Option.bind_some]

theorem tabular_ofSubsets {sets : Numbering a.subsetName} : (a.ofSubsets sets).Tabular :=
  tabular_of_ofRows transitions_ofSubsets size_states_ofSubsets.symm

theorem tabular_merged (h : a.WellFormed) : a.merged.Tabular :=
  tabular_of_ofRows merged_transitions (size_states_merged h).symm

/-- Only names, targets, the start state and accepting states tell such automata apart. -/
theorem Tabular.eq (ha : a.Tabular) (hb : b.Tabular) (hstates : a.states = b.states)
    (halphabet : a.alphabet = b.alphabet) (hstart : a.start = b.start)
    (haccept : a.accept = b.accept)
    (htargets : ∀ q < b.states.size, ∀ i < b.alphabet.size, a.targets q i = b.targets q i) :
    a = b := by
  have htransitions : a.transitions = b.transitions := by
    rw [ha, hb, hstates, halphabet]
    refine OrderedMap.ofRows_eq_ofRows rfl fun k p q hp hq i hi => ?_
    obtain rfl := Option.some.inj (hp.symm.trans hq)
    rw [htargets p (List.mem_range.1 (List.mem_of_getElem? hp)) i hi]
  cases a
  cases b
  congr

theorem map_stateName_range : (List.range a.states.size).map a.stateName = a.states.toList := by
  refine List.ext_getElem (by simp) fun k hk hk' => ?_
  have hname : a.states.toList[k]? = some (a.stateName k) :=
    OrderedSet.getElem?_toList.trans (stateName?_eq (by simpa using hk'))
  rw [List.getElem?_eq_getElem hk', Option.some.injEq] at hname
  simpa using hname.symm

end Automaton
end Chomsky
