import Chomsky.Data.Distinct

/-! # Breadth-first exploration

`explore` lists what a successor function reaches, in the order of discovery. `explore_closed`
says that nothing is missed if the fuel exceeds the size of a finite set that the successors
never leave. What is found depends neither on the fuel beyond that (`explore_eq_of_enough`) nor on
names (`explore_map`).
-/

namespace Chomsky
variable {α : Type u} [DecidableEq α]

/-- Breadth-first search from `seen`, of which `pending` still has to be expanded; at most
`fuel` elements are expanded. -/
def explore (next : α → List α) : Nat → List α → List α → List α
  | 0, seen, _ => seen
  | _ + 1, seen, [] => seen
  | fuel + 1, seen, a :: pending =>
    let found := unseen seen (next a)
    explore next fuel (seen ++ found) (pending ++ found)

variable {next : α → List α} {seen pending : List α} {fuel : Nat}

theorem isPrefix_explore : seen <+: explore next fuel seen pending := by
  induction fuel generalizing seen pending with
  | zero => exact List.prefix_rfl
  | succ fuel ih =>
    cases pending with
    | nil => exact List.prefix_rfl
    | cons a pending => exact (List.prefix_append _ _).trans ih

theorem nodup_explore (h : seen.Nodup) : (explore next fuel seen pending).Nodup := by
  induction fuel generalizing seen pending with
  | zero => exact h
  | succ fuel ih =>
    cases pending with
    | nil => exact h
    | cons a pending => exact ih (nodup_append_unseen h)

theorem forall_mem_explore {p : α → Prop} (hnext : ∀ a, p a → ∀ b ∈ next a, p b)
    (hseen : ∀ a ∈ seen, p a) (hpending : ∀ a ∈ pending, p a) :
    ∀ a ∈ explore next fuel seen pending, p a := by
  induction fuel generalizing seen pending with
  | zero => exact hseen
  | succ fuel ih =>
    cases pending with
    | nil => exact hseen
    | cons a pending =>
      have hfound : ∀ b ∈ unseen seen (next a), p b := fun b hb =>
        hnext a (hpending a List.mem_cons_self) b (mem_unseen.1 hb).1
      refine ih (fun b hb => ?_) fun b hb => ?_
      · exact (List.mem_append.1 hb).elim (hseen b) (hfound b)
      · exact (List.mem_append.1 hb).elim (fun hb => hpending b (List.mem_cons_of_mem a hb))
          (hfound b)

/-- With enough fuel for a finite set that the successors never leave, the result is closed. -/
theorem explore_closed {all : List α} (hall : ∀ a ∈ all, ∀ b ∈ next a, b ∈ all)
    (hnodup : seen.Nodup) (hseen : ∀ a ∈ seen, a ∈ all) (hpending : ∀ a ∈ pending, a ∈ seen)
    (hdone : ∀ a ∈ seen, a ∉ pending → ∀ b ∈ next a, b ∈ seen)
    (hfuel : all.length + pending.length < fuel + seen.length) :
    ∀ a ∈ explore next fuel seen pending, ∀ b ∈ next a,
      b ∈ explore next fuel seen pending := by
  have hle := length_le_of_nodup hnodup hseen
  induction fuel generalizing seen pending with
  | zero => omega
  | succ fuel ih =>
    cases pending with
    | nil => exact fun a ha => hdone a ha List.not_mem_nil
    | cons a pending =>
      have hfound : ∀ b ∈ unseen seen (next a), b ∈ all := fun b hb =>
        hall a (hseen a (hpending a List.mem_cons_self)) b (mem_unseen.1 hb).1
      have hseen' : ∀ b ∈ seen ++ unseen seen (next a), b ∈ all := fun b hb =>
        (List.mem_append.1 hb).elim (hseen b) (hfound b)
      refine ih (nodup_append_unseen hnodup) hseen' (fun b hb => ?_) (fun b hb hnot c hc => ?_)
        ?_ (length_le_of_nodup (nodup_append_unseen hnodup) hseen')
      · exact List.mem_append.2 <| (List.mem_append.1 hb).imp_left fun hb =>
          hpending b (List.mem_cons_of_mem a hb)
      · have hnot := not_or.1 (mt List.mem_append.2 hnot)
        have hb : b ∈ seen := (List.mem_append.1 hb).resolve_right hnot.2
        by_cases hba : b = a
        · subst hba
          by_cases hcs : c ∈ seen
          · exact List.mem_append_left _ hcs
          · exact List.mem_append_right _ (mem_unseen.2 ⟨hc, hcs⟩)
        · exact List.mem_append_left _ <|
            hdone b hb (fun h => (List.mem_cons.1 h).elim hba hnot.1) c hc
      · simp only [List.length_append, List.length_cons] at hfuel ⊢
        omega

theorem explore_eq_of_enough {all : List α} {fuel' : Nat}
    (hall : ∀ a ∈ all, ∀ b ∈ next a, b ∈ all) (hnodup : seen.Nodup) (hseen : ∀ a ∈ seen, a ∈ all)
    (hpending : ∀ a ∈ pending, a ∈ all)
    (hfuel : all.length + pending.length < fuel + seen.length)
    (hfuel' : all.length + pending.length < fuel' + seen.length) :
    explore next fuel seen pending = explore next fuel' seen pending := by
  have hle := length_le_of_nodup hnodup hseen
  induction fuel generalizing fuel' seen pending with
  | zero => omega
  | succ fuel ih =>
    cases fuel' with
    | zero => omega
    | succ fuel' =>
      cases pending with
      | nil => rfl
      | cons a pending =>
        have hfound : ∀ b ∈ unseen seen (next a), b ∈ all := fun b hb =>
          hall a (hpending a List.mem_cons_self) b (mem_unseen.1 hb).1
        have hseen' : ∀ b ∈ seen ++ unseen seen (next a), b ∈ all := fun b hb =>
          (List.mem_append.1 hb).elim (hseen b) (hfound b)
        have hnodup' : (seen ++ unseen seen (next a)).Nodup := nodup_append_unseen hnodup
        refine ih hnodup' hseen' (fun b hb => ?_) ?_ ?_ (length_le_of_nodup hnodup' hseen')
        · exact (List.mem_append.1 hb).elim (fun hb => hpending b (List.mem_cons_of_mem a hb))
            (hfound b)
        · simp only [List.length_append, List.length_cons] at hfuel ⊢
          omega
        · simp only [List.length_append, List.length_cons] at hfuel' ⊢
          omega

/-- Exploration of renamed elements finds the renamed elements in the same order. -/
theorem explore_map {β : Type v} [DecidableEq β] {next' : β → List β} {f : α → β} {p : α → Prop}
    (hnext : ∀ a, p a → ∀ b ∈ next a, p b) (hmap : ∀ a, p a → next' (f a) = (next a).map f)
    (hf : ∀ a, p a → ∀ b, p b → f a = f b → a = b) (hseen : ∀ a ∈ seen, p a)
    (hpending : ∀ a ∈ pending, p a) :
    explore next' fuel (seen.map f) (pending.map f) = (explore next fuel seen pending).map f := by
  induction fuel generalizing seen pending with
  | zero => rfl
  | succ fuel ih =>
    cases pending with
    | nil => rfl
    | cons a pending =>
      have ha := hpending a List.mem_cons_self
      have hcandidates : ∀ b ∈ seen ++ next a, p b := fun b hb =>
        (List.mem_append.1 hb).elim (hseen b) (hnext a ha b)
      have hfound : unseen (seen.map f) (next' (f a)) = (unseen seen (next a)).map f := by
        rw [hmap a ha]
        exact unseen_map fun b hb c hc => hf b (hcandidates b hb) c (hcandidates c hc)
      have hp : ∀ b ∈ unseen seen (next a), p b := fun b hb => hnext a ha b (mem_unseen.1 hb).1
      rw [List.map_cons, explore, explore, hfound, ← List.map_append, ← List.map_append]
      refine ih (fun b hb => ?_) fun b hb => ?_
      · exact (List.mem_append.1 hb).elim (hseen b) (hp b)
      · exact (List.mem_append.1 hb).elim (fun hb => hpending b (List.mem_cons_of_mem a hb)) (hp b)

end Chomsky
