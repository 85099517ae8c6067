import Chomsky.Data.Exploration
import Mathlib.Logic.Relation

/-! # Exploration finds what is reachable

With enough fuel for a finite set that the successors never leave, `explore` lists the elements
that chains of successors lead to, and nothing else (`mem_explore_iff`).
-/

namespace Chomsky

variable {α : Type u} [DecidableEq α] {next : α → List α} {fuel : Nat} {a b : α}

theorem reflTransGen_of_mem_explore (h : b ∈ explore next fuel [a] [a]) :
    Relation.ReflTransGen (fun x y => y ∈ next x) a b := by
  have hstart : ∀ c ∈ [a], Relation.ReflTransGen (fun x y => y ∈ next x) a c := by
    intro c hc
    rw [List.mem_singleton.1 hc]
  exact forall_mem_explore (fun c hac d hd => hac.tail hd) hstart hstart b h

theorem explore_start_closed (all : List α) (hall : ∀ x ∈ all, ∀ y ∈ next x, y ∈ all)
    (ha : a ∈ all) (hfuel : all.length < fuel) :
    ∀ x ∈ explore next fuel [a] [a], ∀ y ∈ next x, y ∈ explore next fuel [a] [a] := by
  apply explore_closed hall ((List.pairwise_singleton _ a))
  · intro x hx
    exact List.mem_singleton.1 hx ▸ ha
  · exact fun x hx => hx
  · exact fun x hx hnot => absurd hx hnot
  · simp only [List.length_singleton]
    omega

/-- What is found is what is reachable. -/
theorem mem_explore_iff (all : List α) (hall : ∀ x ∈ all, ∀ y ∈ next x, y ∈ all)
    (ha : a ∈ all) (hfuel : all.length < fuel) :
    b ∈ explore next fuel [a] [a] ↔ Relation.ReflTransGen (fun x y => y ∈ next x) a b := by
  constructor
  · exact reflTransGen_of_mem_explore
  · intro h
    induction h with
    | refl => exact isPrefix_explore.subset List.mem_cons_self
    | tail _ hbc ih => exact explore_start_closed all hall ha hfuel _ ih _ hbc

end Chomsky
