import Chomsky.Proofs.Automaton.Reachable
import Chomsky.Proofs.Obtainable
import Mathlib.Algebra.BigOperators.Group.Finset.Basic

/-! # Emptiness

An automaton is empty if it accepts no word (`isEmpty_spec`). The states that count are also found
by a search with a queue, which a state may enter several times before it is marked: what was
marked or waits is reachable, and successors of what was marked are marked or wait (`Explored`).
The edges of states that are not marked bound the turns of the search (`drain_eq`).
-/

namespace Chomsky.Automaton

variable {a : Automaton} {reached : StateSet} {queue : List StateId} {q : StateId} {turns : Nat}

/-- Search with a queue. A state is marked as reached when it leaves the queue, and only such states
do not enter it again. There is no result if the turns do not suffice. -/
def drain (a : Automaton) : Nat → StateSet → List StateId → Option StateSet
  | _, reached, [] => some reached
  | 0, _, _ :: _ => none
  | turns + 1, reached, q :: queue =>
    if q ∈ reached then a.drain turns reached queue
    else
      let reached := reached.insert q
      a.drain turns reached (queue ++ (a.successors a.targets q).filter (· ∉ reached))

/-- What holds each time a state is taken from the queue. -/
structure Explored (a : Automaton) (reached : StateSet) (queue : List StateId) : Prop where
  reachable : ∀ q, q ∈ reached ∨ q ∈ queue → a.Reachable q
  start : a.start ∈ reached ∨ a.start ∈ queue
  closed : ∀ q ∈ reached, ∀ r ∈ a.successors a.targets q, r ∈ reached ∨ r ∈ queue

def unexplored (a : Automaton) (reached : StateSet) : Nat :=
  ∑ q ∈ (Finset.range a.states.size).filter (· ∉ reached), (a.successors a.targets q).length

theorem explored_start : a.Explored ∅ [a.start] where
  reachable q hq := by
    obtain rfl := List.mem_singleton.1 (hq.resolve_left StateSet.not_mem_empty)
    exact reachable_start
  start := .inr (List.mem_singleton.2 rfl)
  closed q hq := absurd hq StateSet.not_mem_empty

namespace Explored

theorem skip (h : a.Explored reached (q :: queue)) (hq : q ∈ reached) :
    a.Explored reached queue := by
  have hrest : ∀ r, r ∈ reached ∨ r ∈ q :: queue → r ∈ reached ∨ r ∈ queue := by
    rintro r (hr | hr)
    · exact .inl hr
    · rcases List.mem_cons.1 hr with rfl | hr
      · exact .inl hq
      · exact .inr hr
  exact ⟨fun r hr => h.reachable r (hr.imp_right (List.mem_cons_of_mem q)), hrest _ h.start,
    fun r hr t ht => hrest t (h.closed r hr t ht)⟩

theorem visit (hwf : a.WellFormed) (h : a.Explored reached (q :: queue)) :
    a.Explored (reached.insert q)
      (queue ++ (a.successors a.targets q).filter (· ∉ reached.insert q)) := by
  have hrest : ∀ r, r ∈ reached ∨ r ∈ q :: queue → r ∈ reached.insert q ∨
      r ∈ queue ++ (a.successors a.targets q).filter (· ∉ reached.insert q) := by
    rintro r (hr | hr)
    · exact .inl (StateSet.mem_insert.2 (.inr hr))
    · rcases List.mem_cons.1 hr with rfl | hr
      · exact .inl (StateSet.mem_insert.2 (.inl rfl))
      · exact .inr (List.mem_append_left _ hr)
  have hq : a.Reachable q := h.reachable q (.inr List.mem_cons_self)
  refine ⟨?_, hrest _ h.start, ?_⟩
  · rintro r (hr | hr)
    · rcases StateSet.mem_insert.1 hr with rfl | hr
      · exact hq
      · exact h.reachable r (.inl hr)
    · rcases List.mem_append.1 hr with hr | hr
      · exact h.reachable r (.inr (List.mem_cons_of_mem q hr))
      · obtain ⟨i, -, hr⟩ := mem_successors_iff.1 (List.mem_filter.1 hr).1
        exact hwf.reachable_of_mem_targets hq hr
  · intro r hr t ht
    rcases StateSet.mem_insert.1 hr with rfl | hr
    · by_cases hmem : t ∈ reached.insert r
      · exact .inl hmem
      · exact .inr (List.mem_append_right _ (List.mem_filter.2 ⟨ht, decide_eq_true hmem⟩))
    · exact hrest t (h.closed r hr t ht)

/-- When the queue is empty, what is reachable has been marked. -/
theorem eq_reachableStates (hwf : a.WellFormed) (h : a.Explored reached []) :
    reached = a.reachableStates := by
  have hclosed : ∀ p ∈ reached, ∀ i, ∀ r ∈ a.targets p i, r ∈ reached := fun p hp i r hr =>
    have hsucc := mem_successors_iff.2 ⟨i, hwf.symbol_lt_of_mem_targets hr, hr⟩
    (h.closed p hp r hsucc).resolve_right List.not_mem_nil
  refine StateSet.ext fun q => ?_
  rw [hwf.mem_reachableStates_iff]
  constructor
  · exact fun hq => h.reachable q (.inl hq)
  · rintro ⟨w, hrun⟩
    exact hrun.invariant hclosed (h.start.resolve_right List.not_mem_nil)

end Explored

theorem unexplored_insert (hq : q < a.states.size) (hnot : q ∉ reached) :
    (a.successors a.targets q).length + a.unexplored (reached.insert q) = a.unexplored reached := by
  have herase : (Finset.range a.states.size).filter (· ∉ reached.insert q) =
      ((Finset.range a.states.size).filter (· ∉ reached)).erase q := by
    ext r
    simp only [Finset.mem_filter, Finset.mem_erase, StateSet.mem_insert, not_or]
    tauto
  rw [unexplored, herase]
  have hmem : q ∈ (Finset.range a.states.size).filter (· ∉ reached) :=
    Finset.mem_filter.2 ⟨Finset.mem_range.2 hq, hnot⟩
  exact Finset.add_sum_erase _ (fun q => (a.successors a.targets q).length) hmem

theorem WellFormed.drain_eq (hwf : a.WellFormed) (h : a.Explored reached queue)
    (hturns : queue.length + a.unexplored reached ≤ turns) :
    a.drain turns reached queue = some a.reachableStates := by
  induction turns generalizing reached queue with
  | zero =>
    obtain rfl := List.length_eq_zero_iff.1 (Nat.eq_zero_of_add_eq_zero (Nat.le_zero.1 hturns)).1
    rw [drain, h.eq_reachableStates hwf]
  | succ turns ih =>
    cases queue with
    | nil => rw [drain, h.eq_reachableStates hwf]
    | cons q queue =>
      rw [List.length_cons] at hturns
      rw [drain]
      by_cases hq : q ∈ reached
      · rw [if_pos hq]
        exact ih (h.skip hq) (by omega)
      · rw [if_neg hq]
        have hlt := hwf.lt_of_reachable (h.reachable q (.inr List.mem_cons_self))
        have hsum := unexplored_insert hlt hq
        have hnew := List.length_filter_le (fun r => decide (r ∉ reached.insert q))
          (a.successors a.targets q)
        refine ih (h.visit hwf) ?_
        rw [List.length_append]
        omega

theorem WellFormed.isEmpty_eq_true_iff (hwf : a.WellFormed) : a.isEmpty ↔ ¬∃ w, a.accepts w := by
  simp only [isEmpty, StateSet.isEmpty_iff, StateSet.mem_inter, hwf.mem_reachableStates_iff,
    accepts_iff]
  constructor
  · rintro hnone ⟨w, q, hq, hrun⟩
    exact hnone q ⟨⟨w, hrun⟩, hq⟩
  · rintro hnone q ⟨⟨w, hrun⟩, hq⟩
    exact hnone ⟨w, q, hq, hrun⟩

/-- Emptiness says that no word is accepted. One turn for each edge, and one for the start state,
let the queue find what is reachable. -/
theorem isEmpty_spec (h : a.Obtainable) :
    (a.isEmpty ↔ ¬∃ w, a.accepts w) ∧
      a.drain (1 + a.unexplored ∅) ∅ [a.start] = some a.reachableStates :=
  ⟨h.wellFormed.isEmpty_eq_true_iff, h.wellFormed.drain_eq explored_start (Nat.le_refl _)⟩

/-- The accepting state is not reached. The state `q` enters the queue twice. -/
def unreached : AutomatonDefinition where
  transitions := [("p", "a", "q"), ("p", "b", "q"), ("q", "a", "p"), ("r", "a", "p")]
  start := "p"
  accept := ["r"]

theorem reachableStates_unreached :
    unreached.build.map (fun a => (a.isEmpty, a.reachableStates.toList)) = .ok (true, [0, 2]) := by
  decide +kernel

theorem isEmpty_spec_unreached : ∃ a, unreached.build = .ok a ∧ a.Obtainable ∧
    (¬∃ w, a.accepts w) ∧ a.drain (1 + a.unexplored ∅) ∅ [a.start] = some (.ofList [0, 2]) := by
  obtain ⟨a, ha, heval⟩ := map_eq_ok_iff.1 reachableStates_unreached
  obtain ⟨hempty, hreached⟩ := Prod.mk.inj heval
  have hspec := isEmpty_spec (.build ha)
  have hset : a.reachableStates = .ofList [0, 2] := by
    rw [← StateSet.ofList_toList a.reachableStates, hreached]
  exact ⟨a, ha, .build ha, hspec.1.1 hempty, hset ▸ hspec.2⟩

end Chomsky.Automaton
