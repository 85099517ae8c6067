import Chomsky.Automaton.Equivalence
import Chomsky.Proofs.Automaton.Walk
import Chomsky.Proofs.Data.Reachability

/-! # Reachable states

The states found by exploration are the ends of runs from the start state.
-/

namespace Chomsky.Automaton

variable {a : Automaton} {p q r : StateId} {i : SymbolIndex} {x : String} {v w : List String}

def Reachable (a : Automaton) (q : StateId) : Prop := ∃ w, a.Run a.start w q

theorem Run.append (h : a.Run p v q) (h' : a.Run q w r) : a.Run p (v ++ w) r := by
  induction h with
  | nil => exact h'
  | cons hx ht _ ih => exact .cons hx ht (ih h')

theorem Run.invariant {P : StateId → Prop} (hrun : a.Run p w q)
    (hmove : ∀ p, P p → ∀ i, ∀ r ∈ a.targets p i, P r) (hp : P p) : P q := by
  induction hrun with
  | nil => exact hp
  | cons _ hr _ ih => exact ih (hmove _ hp _ _ hr)

theorem reachable_start : a.Reachable a.start := ⟨[], .nil _⟩

theorem mem_successors_iff :
    r ∈ a.successors a.targets q ↔ ∃ i < a.alphabet.size, r ∈ a.targets q i := by
  simp only [successors, symbols, List.mem_flatMap, List.mem_range]
  rfl

theorem run_singleton_of_mem_targets (hi : i < a.alphabet.size) (hr : r ∈ a.targets q i) :
    ∃ x, a.Run q [x] r := by
  obtain ⟨x, hx⟩ := exists_symbolIndex? hi
  exact ⟨x, .cons hx hr (.nil r)⟩

theorem mem_reachableStates_eq (q : StateId) : q ∈ a.reachableStates ↔
    q ∈ explore (a.successors a.targets) (a.states.size + 1) [a.start] [a.start] := by
  rw [reachableStates_eq, StateSet.mem_ofList]

theorem start_mem_reachableStates : a.start ∈ a.reachableStates :=
  (mem_reachableStates_eq _).2 (isPrefix_explore.subset List.mem_cons_self)

namespace WellFormed

variable (h : a.WellFormed)
include h

theorem reachableStates_closed (hq : q ∈ a.reachableStates) (hr : r ∈ a.targets q i) :
    r ∈ a.reachableStates := by
  rw [mem_reachableStates_eq] at hq ⊢
  have hsucc : r ∈ a.successors a.targets q :=
    mem_successors_iff.2 ⟨i, h.symbol_lt_of_mem_targets hr, hr⟩
  refine explore_start_closed (List.range a.states.size) ?_ ?_ ?_ q hq r hsucc
  · intro q _ r hr
    obtain ⟨i, -, hr⟩ := mem_successors_iff.1 hr
    exact List.mem_range.2 (h.lt_of_mem_targets hr)
  · exact List.mem_range.2 h.start_lt
  · rw [List.length_range]
    exact Nat.lt_succ_self _

theorem mem_reachableStates_of_run (hrun : a.Run p w q) (hp : p ∈ a.reachableStates) :
    q ∈ a.reachableStates :=
  hrun.invariant (fun _ hp _ _ hr => h.reachableStates_closed hp hr) hp

theorem lt_of_run (hrun : a.Run p w q) (hp : p < a.states.size) : q < a.states.size :=
  hrun.invariant (fun _ _ _ _ hr => h.lt_of_mem_targets hr) hp

/-- What exploration finds are the ends of runs. -/
theorem mem_reachableStates_iff : q ∈ a.reachableStates ↔ ∃ w, a.Run a.start w q := by
  constructor
  · intro hq
    replace hq := reflTransGen_of_mem_explore ((mem_reachableStates_eq q).1 hq)
    induction hq with
    | refl => exact ⟨[], .nil a.start⟩
    | tail _ hstep ih =>
      obtain ⟨w, hrun⟩ := ih
      obtain ⟨i, hi, hr⟩ := mem_successors_iff.1 hstep
      obtain ⟨x, hx⟩ := run_singleton_of_mem_targets hi hr
      exact ⟨w ++ [x], hrun.append hx⟩
  · rintro ⟨w, hrun⟩
    exact h.mem_reachableStates_of_run hrun start_mem_reachableStates

theorem lt_of_reachable (hq : a.Reachable q) : q < a.states.size := by
  obtain ⟨w, hrun⟩ := hq
  exact h.lt_of_run hrun h.start_lt

theorem reachable_of_mem_targets (hq : a.Reachable q) (hr : r ∈ a.targets q i) : a.Reachable r := by
  obtain ⟨w, hrun⟩ := hq
  obtain ⟨x, hx⟩ := run_singleton_of_mem_targets (h.symbol_lt_of_mem_targets hr) hr
  exact ⟨w ++ [x], hrun.append hx⟩

end WellFormed

end Chomsky.Automaton
