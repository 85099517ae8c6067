import Chomsky.Automaton.Basic

/-! # Well-formed automata

All numbers that an automaton mentions are in range, and no transition leads to the empty set.
-/

namespace Chomsky

namespace Transitions

/-- Transitions between numbered states on numbered symbols, none of them to the empty set. -/
structure Within (ts : Transitions) (states symbols : Nat) : Prop where
  source_lt : ∀ {q i s}, ts.get? (q, i) = some s → q < states
  symbol_lt : ∀ {q i s}, ts.get? (q, i) = some s → i < symbols
  target_lt : ∀ {q i s}, ts.get? (q, i) = some s → ∀ r ∈ s, r < states
  nonempty : ∀ {q i s}, ts.get? (q, i) = some s → ∃ r, r ∈ s

variable {ts : Transitions} {states states' symbols symbols' : Nat} {q r : StateId}
  {i : SymbolIndex}

theorem within_empty : Within ∅ states symbols where
  source_lt h := nomatch h
  symbol_lt h := nomatch h
  target_lt h := nomatch h
  nonempty h := nomatch h

theorem Within.mono (h : ts.Within states symbols) (hstates : states ≤ states')
    (hsymbols : symbols ≤ symbols') : ts.Within states' symbols' where
  source_lt hs := Nat.lt_of_lt_of_le (h.source_lt hs) hstates
  symbol_lt hs := Nat.lt_of_lt_of_le (h.symbol_lt hs) hsymbols
  target_lt hs r hr := Nat.lt_of_lt_of_le (h.target_lt hs r hr) hstates
  nonempty := h.nonempty

theorem get?_add (k : StateId × SymbolIndex) :
    (ts.add q i r).get? k =
      if k = (q, i) then some (((ts.get? (q, i)).getD ∅).insert r) else ts.get? k :=
  OrderedMap.get?_upsert ts (q, i) k _

theorem get?_add_cases {p : StateId} {j : SymbolIndex} {s : StateSet}
    (h : (ts.add q i r).get? (p, j) = some s) :
    ts.get? (p, j) = some s ∨ p = q ∧ j = i ∧ r ∈ s ∧
      ∀ t ∈ s, t = r ∨ ∃ s', ts.get? (q, i) = some s' ∧ t ∈ s' := by
  rw [get?_add] at h
  split at h
  · next hk =>
    obtain ⟨rfl, rfl⟩ := Prod.mk.inj hk
    obtain rfl := Option.some.inj h
    refine Or.inr ⟨rfl, rfl, by simp, fun t ht => ?_⟩
    rcases StateSet.mem_insert.1 ht with rfl | ht
    · exact Or.inl rfl
    · cases hs : ts.get? (p, j) with
      | none => simp [hs] at ht
      | some s' => exact Or.inr ⟨s', rfl, by simpa [hs] using ht⟩
  · exact Or.inl h

theorem Within.add (h : ts.Within states symbols) (hq : q < states) (hi : i < symbols)
    (hr : r < states) : (ts.add q i r).Within states symbols where
  source_lt hs := by
    rcases get?_add_cases hs with hs | ⟨rfl, -⟩
    · exact h.source_lt hs
    · exact hq
  symbol_lt hs := by
    rcases get?_add_cases hs with hs | ⟨-, rfl, -⟩
    · exact h.symbol_lt hs
    · exact hi
  target_lt hs t ht := by
    rcases get?_add_cases hs with hs | ⟨-, -, -, hcases⟩
    · exact h.target_lt hs t ht
    · rcases hcases t ht with rfl | ⟨s', hs', ht⟩
      · exact hr
      · exact h.target_lt hs' t ht
  nonempty hs := by
    rcases get?_add_cases hs with hs | ⟨-, -, hr, -⟩
    · exact h.nonempty hs
    · exact ⟨r, hr⟩

theorem within_ofRows (rows : List α) (f : α → SymbolIndex → Option StateId)
    (h : ∀ a ∈ rows, ∀ i r, f a i = some r → r < rows.length) :
    Within (OrderedMap.ofRows rows symbols fun a i => (f a i).map StateSet.singleton)
      rows.length symbols := by
  have hentry : ∀ {q i s}, (OrderedMap.ofRows rows symbols
      fun a i => (f a i).map StateSet.singleton).get? (q, i) = some s →
      i < symbols ∧ ∃ a r, rows[q]? = some a ∧ f a i = some r ∧ s = .singleton r := by
    intro q i s hs
    rw [OrderedMap.get?_ofRows] at hs
    split at hs
    · next hi =>
      obtain ⟨a, ha, hs⟩ := Option.bind_eq_some_iff.1 hs
      obtain ⟨r, hr, rfl⟩ := Option.map_eq_some_iff.1 hs
      exact ⟨hi, a, r, ha, hr, rfl⟩
    · cases hs
  constructor
  · intro q i s hs
    obtain ⟨-, a, r, ha, -⟩ := hentry hs
    exact (List.getElem?_eq_some_iff.1 ha).1
  · exact fun hs => (hentry hs).1
  · intro q i s hs t ht
    obtain ⟨-, a, r, ha, hr, rfl⟩ := hentry hs
    obtain rfl := StateSet.mem_singleton.1 ht
    exact h a (List.mem_of_getElem? ha) i t hr
  · intro q i s hs
    obtain ⟨-, a, r, -, -, rfl⟩ := hentry hs
    exact ⟨r, StateSet.mem_singleton.2 rfl⟩

end Transitions

namespace Automaton

structure WellFormed (a : Automaton) : Prop where
  start_lt : a.start < a.states.size
  accept_lt : ∀ q ∈ a.accept, q < a.states.size
  transitions : a.transitions.Within a.states.size a.alphabet.size

variable {a : Automaton} {q r : StateId} {i : SymbolIndex}

theorem mem_targets_iff : r ∈ a.targets q i ↔ ∃ s, a.transitions.get? (q, i) = some s ∧ r ∈ s := by
  unfold targets
  cases a.transitions.get? (q, i) <;> simp

theorem mem_edges_iff : (q, i, r) ∈ a.edges ↔ r ∈ a.targets q i := by
  rw [mem_targets_iff, edges, List.mem_flatMap]
  constructor
  · rintro ⟨⟨⟨q', i'⟩, s⟩, hentry, hmem⟩
    obtain ⟨r', hr, heq⟩ := List.mem_map.1 hmem
    cases heq
    exact ⟨s, OrderedMap.get?_eq_some_iff.2 hentry, hr⟩
  · rintro ⟨s, hs, hr⟩
    exact ⟨((q, i), s), OrderedMap.get?_eq_some_iff.1 hs, List.mem_map.2 ⟨r, hr, rfl⟩⟩

theorem WellFormed.lt_of_mem_targets (h : a.WellFormed) (hr : r ∈ a.targets q i) :
    r < a.states.size := by
  obtain ⟨s, hs, hr⟩ := mem_targets_iff.1 hr
  exact h.transitions.target_lt hs r hr

theorem WellFormed.symbol_lt_of_mem_targets (h : a.WellFormed) (hr : r ∈ a.targets q i) :
    i < a.alphabet.size := by
  obtain ⟨s, hs, -⟩ := mem_targets_iff.1 hr
  exact h.transitions.symbol_lt hs

theorem WellFormed.source_lt_of_mem_targets (h : a.WellFormed) (hr : r ∈ a.targets q i) :
    q < a.states.size := by
  obtain ⟨s, hs, -⟩ := mem_targets_iff.1 hr
  exact h.transitions.source_lt hs

theorem WellFormed.lt_of_mem_edges (h : a.WellFormed) :
    ∀ edge ∈ a.edges, edge.1 < a.states.size ∧ edge.2.1 < a.alphabet.size ∧
      edge.2.2 < a.states.size := by
  rintro ⟨q, i, r⟩ hedge
  have hr := mem_edges_iff.1 hedge
  exact ⟨h.source_lt_of_mem_targets hr, h.symbol_lt_of_mem_targets hr, h.lt_of_mem_targets hr⟩

theorem stateName?_eq (hq : q < a.states.size) : a.stateName? q = some (a.stateName q) := by
  rw [← OrderedSet.length_toList] at hq
  rw [stateName, stateName?, ← OrderedSet.getElem?_toList, List.getElem?_eq_getElem hq,
    Option.getD_some]

theorem symbolName?_eq (hi : i < a.alphabet.size) : a.symbolName? i = some (a.symbolName i) := by
  rw [← OrderedSet.length_toList] at hi
  rw [symbolName, symbolName?, ← OrderedSet.getElem?_toList, List.getElem?_eq_getElem hi,
    Option.getD_some]

theorem isDeterministic_iff : a.isDeterministic ↔ ∀ q i, (a.targets q i).size ≤ 1 := by
  simp only [isDeterministic, List.all_eq_true, OrderedMap.mem_values_iff, decide_eq_true_eq]
  constructor
  · intro h q i
    unfold targets
    cases ht : a.transitions.get? (q, i) with
    | none => exact Nat.zero_le 1
    | some s => exact h s ⟨_, ht⟩
  · rintro h s ⟨⟨q, i⟩, ht⟩
    have := h q i
    rwa [targets, ht] at this

section OfRows

variable {α : Type} {rows : List α} {columns k : Nat} {f : α → SymbolIndex → Option StateId}
  (h : a.transitions = .ofRows rows columns fun row i => (f row i).map StateSet.singleton)
include h

theorem targets_eq_of_ofRows (hi : i < columns) :
    a.targets k i = .ofOption (rows[k]?.bind fun row => f row i) := by
  rw [targets, h, OrderedMap.get?_ofRows, if_pos hi]
  cases rows[k]? with
  | none => rfl
  | some row =>
    rw [Option.bind_some, Option.bind_some]
    cases f row i <;> rfl

theorem isDeterministic_of_ofRows : a.isDeterministic := by
  refine isDeterministic_iff.2 fun k i => ?_
  by_cases hi : i < columns
  · rw [targets_eq_of_ofRows h hi]
    exact StateSet.size_ofOption_le _
  · rw [targets, h, OrderedMap.get?_ofRows, if_neg hi]
    exact Nat.zero_le 1

end OfRows

end Automaton
end Chomsky
