/-! # Lists without repetitions

A list without repetitions is no longer than any list that holds its members, and
`eraseDups` yields such lists. `unseen` does so for what is not yet in another list.
-/

namespace Chomsky
variable {α : Type u}

theorem length_le_of_nodup [DecidableEq α] : ∀ {l m : List α}, l.Nodup → (∀ a ∈ l, a ∈ m) →
    l.length ≤ m.length
  | [], _, _, _ => Nat.zero_le _
  | a :: l, m, hl, hm => by
    have ⟨ha, hl⟩ := List.nodup_cons.1 hl
    have hmem : a ∈ m := hm a List.mem_cons_self
    have hle : l.length ≤ (m.erase a).length :=
      length_le_of_nodup hl fun b hb =>
        (List.mem_erase_of_ne fun (e : b = a) => ha (e ▸ hb)).2 (hm b (List.mem_cons_of_mem a hb))
    have hpos := List.length_pos_of_mem hmem
    rw [List.length_erase_of_mem hmem] at hle
    simp only [List.length_cons]
    omega

theorem nodup_eraseDups [BEq α] [LawfulBEq α] (l : List α) : l.eraseDups.Nodup := by
  match l with
  | [] => exact List.nodup_nil
  | a :: l =>
    rw [List.eraseDups_cons]
    refine List.nodup_cons.2 ⟨fun h => ?_, nodup_eraseDups _⟩
    have h := (List.mem_filter.1 (List.mem_eraseDups.1 h)).2
    simp at h
termination_by l.length
decreasing_by exact Nat.lt_succ_of_le (List.length_filter_le _ _)

variable [DecidableEq α]

def unseen (seen candidates : List α) : List α :=
  (candidates.filter (· ∉ seen)).eraseDups

variable {seen candidates : List α} {a : α}

theorem unseen_nil : unseen seen [] = [] := rfl

theorem unseen_cons_of_mem (h : a ∈ seen) :
    unseen seen (a :: candidates) = unseen seen candidates := by
  simp [unseen, h]

theorem unseen_cons_of_not_mem (h : a ∉ seen) :
    unseen seen (a :: candidates) = a :: unseen (seen ++ [a]) candidates := by
  simp only [unseen, List.filter_cons, decide_not, h, decide_false, Bool.not_false, if_true,
    List.eraseDups_cons, List.filter_filter, List.mem_append, List.mem_singleton]
  congr 3
  funext b
  by_cases hb : b = a <;> simp [hb]

theorem unseen_of_nodup (h : (seen ++ candidates).Nodup) : unseen seen candidates = candidates := by
  induction candidates generalizing seen with
  | nil => exact unseen_nil
  | cons a candidates ih =>
    have ha : a ∉ seen := fun ha => (List.nodup_append.1 h).2.2 a ha a List.mem_cons_self rfl
    rw [unseen_cons_of_not_mem ha, ih]
    rwa [List.append_assoc, List.singleton_append]

theorem mem_unseen : a ∈ unseen seen candidates ↔ a ∈ candidates ∧ a ∉ seen := by
  simp [unseen, List.mem_eraseDups]

theorem nodup_unseen : (unseen seen candidates).Nodup := nodup_eraseDups _

theorem nodup_append_unseen (h : seen.Nodup) : (seen ++ unseen seen candidates).Nodup :=
  List.nodup_append.2 ⟨h, nodup_unseen, fun _ ha _ hb e => (mem_unseen.1 hb).2 (e ▸ ha)⟩

theorem unseen_map {β : Type v} [DecidableEq β] {f : α → β}
    (hf : ∀ a ∈ seen ++ candidates, ∀ b ∈ seen ++ candidates, f a = f b → a = b) :
    unseen (seen.map f) (candidates.map f) = (unseen seen candidates).map f := by
  induction candidates generalizing seen with
  | nil => rfl
  | cons a candidates ih =>
    have hmem : f a ∈ seen.map f ↔ a ∈ seen := by
      refine ⟨fun ha => ?_, List.mem_map_of_mem⟩
      obtain ⟨b, hb, heq⟩ := List.mem_map.1 ha
      exact hf b (List.mem_append_left _ hb) a (by simp) heq ▸ hb
    rw [List.map_cons]
    by_cases ha : a ∈ seen
    · rw [unseen_cons_of_mem (hmem.2 ha), unseen_cons_of_mem ha]
      have hsub := ((List.sublist_cons_self a candidates).append_left seen).subset
      exact ih fun b hb c hc => hf b (hsub hb) c (hsub hc)
    · rw [unseen_cons_of_not_mem (mt hmem.1 ha), unseen_cons_of_not_mem ha, List.map_cons]
      congr 1
      rw [← List.map_singleton, ← List.map_append]
      refine ih fun b hb c hc => hf b ?_ c ?_
      · rwa [List.append_assoc] at hb
      · rwa [List.append_assoc] at hc

end Chomsky
