import Chomsky.Automaton.Refinement
import Chomsky.Proofs.Automaton.Reachable

/-! # Futures of states

Two states of the completed automaton have the same future if the same words lead from them to
acceptance; none does from the sink. Futures are preserved by steps, and a relation that is so
too and respects acceptance relates only states of the same future
(`sameFuture_of_bisimulation`).
-/

namespace Chomsky.Automaton

variable {a : Automaton} {q r s : StateId} {i : SymbolIndex} {w : List String}

def proper? (a : Automaton) (q : StateId) : Option StateId := if q = a.sink then none else some q

def acceptsLater (a : Automaton) (q : StateId) (w : List String) : Bool :=
  a.acceptsAt (a.walk? (a.proper? q) w)

/-- The same words lead from both states to acceptance. -/
def SameFuture (a : Automaton) (q r : StateId) : Prop :=
  ∀ w, a.acceptsLater q w = a.acceptsLater r w

theorem SameFuture.refl (q : StateId) : a.SameFuture q q := fun _ => rfl

theorem SameFuture.symm (h : a.SameFuture q r) : a.SameFuture r q := fun w => (h w).symm

theorem SameFuture.trans (h : a.SameFuture q r) (h' : a.SameFuture r s) : a.SameFuture q s :=
  fun w => (h w).trans (h' w)

theorem proper?_sink : a.proper? a.sink = none := if_pos rfl

theorem proper?_of_ne (h : q ≠ a.sink) : a.proper? q = some q := if_neg h

theorem target_sink : a.target a.sink i = a.sink := if_pos rfl

theorem target_of_ne (h : q ≠ a.sink) : a.target q i = ((a.targets q i).least?).getD a.sink :=
  if_neg h

theorem acceptsLater_sink (w : List String) : a.acceptsLater a.sink w = false := by
  rw [acceptsLater, proper?_sink, walk?_none]
  rfl

theorem mem_completedStates_iff :
    q ∈ a.completedStates ↔ q = a.sink ∨ q ∈ a.reachableStates := StateSet.mem_insert

theorem sink_mem_completedStates : a.sink ∈ a.completedStates :=
  mem_completedStates_iff.2 (Or.inl rfl)

theorem start_mem_completedStates : a.start ∈ a.completedStates :=
  mem_completedStates_iff.2 (Or.inr start_mem_reachableStates)

namespace WellFormed

variable (h : a.WellFormed)
include h

theorem start_ne_sink : a.start ≠ a.sink := Nat.ne_of_lt h.start_lt

theorem ne_sink_of_reachable (hq : a.Reachable q) : q ≠ a.sink :=
  Nat.ne_of_lt (h.lt_of_reachable hq)

theorem mem_completedStates_of_reachable (hq : a.Reachable q) : q ∈ a.completedStates :=
  mem_completedStates_iff.2 (Or.inr (h.mem_reachableStates_iff.2 hq))

theorem acceptsAt_proper? (q : StateId) : a.acceptsAt (a.proper? q) = decide (q ∈ a.accept) := by
  unfold proper?
  split
  · next hq =>
    refine (decide_eq_false fun hmem => ?_).symm
    exact Nat.ne_of_lt (h.accept_lt q hmem) hq
  · rfl

theorem acceptsLater_nil : a.acceptsLater q [] ↔ q ∈ a.accept := by
  rw [acceptsLater, walk?_nil, h.acceptsAt_proper?, decide_eq_true_eq]

theorem proper?_target (q : StateId) (i : SymbolIndex) :
    a.proper? (a.target q i) = (a.proper? q).bind fun p => (a.targets p i).least? := by
  by_cases hq : q = a.sink
  · rw [hq, target_sink, proper?_sink]
    rfl
  · rw [target_of_ne hq, proper?_of_ne hq, Option.bind_some]
    cases hleast : (a.targets q i).least? with
    | none => exact proper?_sink
    | some r =>
      exact proper?_of_ne (Nat.ne_of_lt (h.lt_of_mem_targets (StateSet.mem_of_least? hleast)))

theorem step?_proper? (q : StateId) {x : String} (hx : a.symbolIndex? x = some i) :
    a.step? a.targets (a.proper? q) x = a.proper? (a.target q i) := by
  rw [step?_eq, hx, Option.bind_some, h.proper?_target]

theorem acceptsLater_cons (q : StateId) {x : String} (hx : a.symbolIndex? x = some i) :
    a.acceptsLater q (x :: w) = a.acceptsLater (a.target q i) w := by
  rw [acceptsLater, walk?, List.foldl_cons, h.step?_proper? q hx, ← walk?, ← acceptsLater]

theorem accept_iff_of_sameFuture (hqr : a.SameFuture q r) : q ∈ a.accept ↔ r ∈ a.accept := by
  rw [← h.acceptsLater_nil, hqr, h.acceptsLater_nil]

theorem sameFuture_target (hqr : a.SameFuture q r) (hi : i < a.alphabet.size) :
    a.SameFuture (a.target q i) (a.target r i) := by
  obtain ⟨x, hx⟩ := exists_symbolIndex? hi
  intro w
  rw [← h.acceptsLater_cons q hx, ← h.acceptsLater_cons r hx]
  exact hqr (x :: w)

theorem sameFuture_of_bisimulation {R : StateId → StateId → Prop}
    (haccept : ∀ q r, R q r → (q ∈ a.accept ↔ r ∈ a.accept))
    (htarget : ∀ q r i, R q r → i < a.alphabet.size → R (a.target q i) (a.target r i))
    (hqr : R q r) : a.SameFuture q r := by
  intro w
  induction w generalizing q r with
  | nil =>
    rw [Bool.eq_iff_iff, h.acceptsLater_nil, h.acceptsLater_nil]
    exact haccept q r hqr
  | cons x w ih =>
    cases hx : a.symbolIndex? x with
    | none =>
      rw [acceptsLater, acceptsLater, walk?, walk?, List.foldl_cons, List.foldl_cons,
        step?_eq_none hx, step?_eq_none hx]
    | some i =>
      rw [h.acceptsLater_cons q hx, h.acceptsLater_cons r hx]
      exact ih (htarget q r i hqr (symbolIndex?_lt hx))

theorem target_mem_completedStates (hq : q ∈ a.completedStates) (i : SymbolIndex) :
    a.target q i ∈ a.completedStates := by
  by_cases hsink : q = a.sink
  · rw [hsink, target_sink]
    exact sink_mem_completedStates
  · rw [target_of_ne hsink]
    cases hleast : (a.targets q i).least? with
    | none => exact sink_mem_completedStates
    | some r =>
      have hq := (mem_completedStates_iff.1 hq).resolve_left hsink
      exact mem_completedStates_iff.2
        (Or.inr (h.reachableStates_closed hq (StateSet.mem_of_least? hleast)))

end WellFormed

end Chomsky.Automaton
