import Chomsky.Proofs.Automaton.Definition
import Chomsky.Proofs.Automaton.Walk
import Chomsky.Symbol.Fresh
import Mathlib

/-! # Automata of regular languages

The states of a complete deterministic acceptor, numbered, are those of an automaton over any
alphabet (`accepts_ofAcceptor_iff`). So every regular language has an automaton
(`exists_accepts_iff_of_isRegular`).
-/

namespace Chomsky.Automaton

variable {n : Nat} (m : DFA String (Fin n)) [DecidablePred (· ∈ m.accept)]
  (alphabet : OrderedSet String)

/-- The automaton with the states of an acceptor, which are named by their numbers. -/
def ofAcceptor : Automaton where
  states := .ofList ((List.finRange n).map fun q => numbered "q" q.val)
  alphabet := alphabet
  transitions := .ofRows (List.finRange n) alphabet.size fun q i =>
    ((alphabet.get? i).map fun x => (m.step q x).val).map StateSet.singleton
  start := m.start.val
  accept := .ofList (((List.finRange n).filter (· ∈ m.accept)).map Fin.val)

variable {m alphabet} {q : Fin n} {w : List String} {x : String} {i : SymbolIndex}

theorem size_states_ofAcceptor : (ofAcceptor m alphabet).states.size = n := by
  have hnodup : ((List.finRange n).map fun q => numbered "q" q.val).Nodup :=
    (List.nodup_finRange n).map fun q r h => Fin.ext (numbered_injective "q" h)
  rw [← OrderedSet.length_toList, ofAcceptor, OrderedSet.toList_ofList_of_nodup hnodup,
    List.length_map, List.length_finRange]

theorem mem_accept_ofAcceptor : q.val ∈ (ofAcceptor m alphabet).accept ↔ q ∈ m.accept := by
  simp only [ofAcceptor, StateSet.mem_ofList, List.mem_map, List.mem_filter, List.mem_finRange,
    decide_eq_true_eq, true_and, Fin.val_inj, exists_eq_right]

theorem wellFormed_ofAcceptor : (ofAcceptor m alphabet).WellFormed where
  start_lt := by
    rw [size_states_ofAcceptor]
    exact m.start.isLt
  accept_lt q hq := by
    rw [size_states_ofAcceptor]
    obtain ⟨r, -, rfl⟩ := List.mem_map.1 (StateSet.mem_ofList.1 hq)
    exact r.isLt
  transitions := by
    have hwithin : Transitions.Within (ofAcceptor m alphabet).transitions (List.finRange n).length
        alphabet.size := Transitions.within_ofRows (List.finRange n)
          (fun q i => (alphabet.get? i).map fun x => (m.step q x).val) fun q _ i r hr => by
      obtain ⟨x, -, rfl⟩ := Option.map_eq_some_iff.1 hr
      rw [List.length_finRange]
      exact (m.step q x).isLt
    rw [size_states_ofAcceptor]
    rwa [List.length_finRange] at hwithin

theorem transitions_ofAcceptor : (ofAcceptor m alphabet).transitions =
    .ofRows (List.finRange n) alphabet.size fun q i =>
      ((alphabet.get? i).map fun x => (m.step q x).val).map StateSet.singleton := rfl

theorem isDeterministic_ofAcceptor : (ofAcceptor m alphabet).isDeterministic :=
  isDeterministic_of_ofRows transitions_ofAcceptor

theorem step?_ofAcceptor (hx : x ∈ alphabet) :
    (ofAcceptor m alphabet).step? (ofAcceptor m alphabet).targets (some q.val) x =
      some (m.step q x).val := by
  obtain ⟨i, hi⟩ := OrderedSet.mem_iff_get?.1 hx
  have hindex : (ofAcceptor m alphabet).symbolIndex? x = some i := OrderedSet.get?_idxOf?_iff.2 hi
  rw [step?_eq, hindex, Option.bind_some, Option.bind_some,
    targets_eq_of_ofRows transitions_ofAcceptor (OrderedSet.lt_size_of_get? hi),
    StateSet.least?_ofOption, List.getElem?_eq_getElem (by simp), Option.bind_some, hi,
    Option.map_some, List.getElem_finRange]
  rfl

theorem walk?_ofAcceptor (hw : ∀ x ∈ w, x ∈ alphabet) :
    (ofAcceptor m alphabet).walk? (some q.val) w = some (m.evalFrom q w).val := by
  induction w generalizing q with
  | nil => rfl
  | cons x w ih =>
    obtain ⟨hx, hw⟩ := List.forall_mem_cons.1 hw
    rw [walk?, List.foldl_cons, step?_ofAcceptor hx]
    exact ih hw

theorem forall_mem_of_walk? {a : Automaton} {o : Option StateId} {r : StateId}
    (hw : a.walk? o w = some r) : ∀ x ∈ w, x ∈ a.alphabet := by
  induction w generalizing o with
  | nil => exact nofun
  | cons x w ih =>
    rw [walk?, List.foldl_cons] at hw
    refine List.forall_mem_cons.2 ⟨?_, ih hw⟩
    cases hx : a.symbolIndex? x with
    | none =>
      rw [step?_eq_none hx] at hw
      cases (walk?_none w).symm.trans hw
    | some i => exact OrderedSet.mem_iff_get?.2 ⟨i, OrderedSet.get?_idxOf?_iff.1 hx⟩

theorem accepts_ofAcceptor_iff :
    (ofAcceptor m alphabet).accepts w ↔ (∀ x ∈ w, x ∈ alphabet) ∧ w ∈ m.accepts := by
  rw [accepts_eq_acceptsAt isDeterministic_ofAcceptor, acceptsAt, Option.any_eq_true]
  simp only [decide_eq_true_eq]
  constructor
  · rintro ⟨r, hr, haccept⟩
    have hall : ∀ x ∈ w, x ∈ alphabet := forall_mem_of_walk? hr
    cases (walk?_ofAcceptor hall).symm.trans hr
    exact ⟨hall, mem_accept_ofAcceptor.1 haccept⟩
  · rintro ⟨hall, hw⟩
    exact ⟨_, walk?_ofAcceptor hall, mem_accept_ofAcceptor.2 hw⟩

/-- A regular language over an alphabet is that of a deterministic automaton. -/
theorem exists_accepts_iff_of_isRegular {l : Language String} (hl : l.IsRegular)
    (hall : ∀ w ∈ l, ∀ x ∈ w, x ∈ alphabet) : ∃ a : Automaton, a.WellFormed ∧
      a.isDeterministic ∧ a.alphabet = alphabet ∧ ∀ w, a.accepts w ↔ w ∈ l := by
  classical
  obtain ⟨σ, _, m, rfl⟩ := hl
  refine ⟨ofAcceptor (m.reindex (Fintype.equivFin σ)) alphabet, wellFormed_ofAcceptor,
    isDeterministic_ofAcceptor, rfl, fun w => ?_⟩
  rw [accepts_ofAcceptor_iff, DFA.accepts_reindex]
  exact and_iff_right_of_imp (hall w)

end Chomsky.Automaton
