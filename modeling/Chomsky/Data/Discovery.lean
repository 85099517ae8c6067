import Chomsky.Data.Exploration
import Chomsky.Data.Numbering

/-! # Discovery under labels

`discover` is the exploration of `explore` with the elements entered in a numbering. It stops
at the first element whose label belongs to another one: `discover_eq_ok` and
`discover_eq_error` state both outcomes in terms of `explore`.
-/

namespace Chomsky
variable {α : Type u} {κ : Type v} {label : α → κ} {a b : α}

/-- The list `l` reaches the element `a` before it repeats a label, and that of `a` is also the
label of the earlier element `b`. -/
def FirstClash (label : α → κ) (l : List α) (b a : α) : Prop :=
  ∃ l₁ l₂, l = l₁ ++ a :: l₂ ∧ (l₁.map label).Nodup ∧ b ∈ l₁ ∧ label b = label a ∧ b ≠ a

theorem FirstClash.of_isPrefix {l l' : List α} (h : FirstClash label l b a) (hl : l <+: l') :
    FirstClash label l' b a := by
  obtain ⟨l₁, l₂, rfl, h⟩ := h
  obtain ⟨l₃, rfl⟩ := hl
  exact ⟨l₁, l₂ ++ l₃, by simp, h⟩

theorem label_ne_of_nodup {l l' : List α} (h : ((l ++ a :: l').map label).Nodup) (hb : b ∈ l) :
    label b ≠ label a := by
  rw [List.map_append, List.nodup_append] at h
  exact h.2.2 _ (List.mem_map_of_mem hb) _ (List.mem_map_of_mem List.mem_cons_self)

theorem FirstClash.not_nodup {l : List α} (h : FirstClash label l b a) :
    ¬(l.map label).Nodup := by
  obtain ⟨l₁, l₂, rfl, -, hb, hlabel, -⟩ := h
  exact fun hnodup => label_ne_of_nodup hnodup hb hlabel

variable [DecidableEq α] [Ord κ] [Std.TransOrd κ] [Std.LawfulEqOrd κ]
variable {next : α → List α} {candidates : List α} {fuel : Nat}

/-- Breadth-first search that expands the members of a numbering from the one with number
`done` on; at most `fuel` of them are expanded. -/
def discover (next : α → List α) : Nat → Numbering label → Nat →
    Except (α × α) (Numbering label)
  | 0, d, _ => .ok d
  | fuel + 1, d, done =>
    match d.get? done with
    | none => .ok d
    | some a =>
      match d.insertAll? (next a) with
      | .ok d => discover next fuel d (done + 1)
      | .error clash => .error clash

theorem insertAll?_eq_ok {d d' : Numbering label}
    (h : d.insertAll? candidates = .ok d') :
    d'.toList = d.toList ++ unseen d.toList candidates := by
  induction candidates generalizing d with
  | nil => cases h; simp [unseen_nil]
  | cons c candidates ih =>
    unfold Numbering.insertAll? at h
    by_cases hc : c ∈ d.toList
    · rw [Numbering.insert?_of_mem hc] at h
      rw [ih h, unseen_cons_of_mem hc]
    · cases hl : d.hasLabel (label c) with
      | false =>
        rw [Numbering.insert?_of_not_hasLabel hl] at h
        rw [ih h, Numbering.toList_insert, hl, unseen_cons_of_not_mem hc]
        simp
      | true =>
        obtain ⟨b, hb, hlb⟩ := List.mem_map.1 (Numbering.hasLabel_iff.1 hl)
        rw [Numbering.insert?_eq_error_iff.2 ⟨rfl, hb, hlb, fun e => hc (e ▸ hb)⟩] at h
        cases h

theorem insertAll?_eq_error {d : Numbering label}
    (h : d.insertAll? candidates = .error (b, a)) :
    FirstClash label (d.toList ++ unseen d.toList candidates) b a := by
  induction candidates generalizing d with
  | nil => cases h
  | cons c candidates ih =>
    unfold Numbering.insertAll? at h
    by_cases hc : c ∈ d.toList
    · rw [Numbering.insert?_of_mem hc] at h
      rw [unseen_cons_of_mem hc]
      exact ih h
    · rw [unseen_cons_of_not_mem hc]
      cases hl : d.hasLabel (label c) with
      | false =>
        rw [Numbering.insert?_of_not_hasLabel hl] at h
        have h := ih h
        rw [Numbering.toList_insert, hl] at h
        simpa using h
      | true =>
        obtain ⟨b', hb', hlb⟩ := List.mem_map.1 (Numbering.hasLabel_iff.1 hl)
        have hne : b' ≠ c := fun e => hc (e ▸ hb')
        rw [Numbering.insert?_eq_error_iff.2 ⟨rfl, hb', hlb, hne⟩] at h
        cases h
        exact ⟨d.toList, _, rfl, d.nodup_labels, hb', hlb, hne⟩

/-- Without a clash `discover` finds what `explore` finds. -/
theorem discover_eq_ok {d d' : Numbering label} {done : Nat}
    (h : discover next fuel d done = .ok d') :
    d'.toList = explore next fuel d.toList (d.toList.drop done) := by
  induction fuel generalizing d done with
  | zero => cases h; rfl
  | succ fuel ih =>
    unfold discover at h
    rw [← Numbering.getElem?_toList] at h
    split at h
    · next hnone =>
      cases h
      rw [List.drop_eq_nil_of_le (List.getElem?_eq_none_iff.1 hnone)]
      rfl
    · next a ha =>
      have ⟨hlt, e⟩ := List.getElem?_eq_some_iff.1 ha
      rw [List.drop_eq_getElem_cons hlt, e, explore]
      cases hall : d.insertAll? (next a) with
      | error _ => rw [hall] at h; cases h
      | ok d₁ =>
        rw [hall] at h
        have hd₁ := insertAll?_eq_ok hall
        rw [ih h, hd₁, List.drop_append_of_le_length hlt]

/-- A clash that `discover` reports is the first one of what `explore` finds. -/
theorem discover_eq_error {d : Numbering label} {done : Nat}
    (h : discover next fuel d done = .error (b, a)) :
    FirstClash label (explore next fuel d.toList (d.toList.drop done)) b a := by
  induction fuel generalizing d done with
  | zero => cases h
  | succ fuel ih =>
    unfold discover at h
    rw [← Numbering.getElem?_toList] at h
    split at h
    · cases h
    · next c hc =>
      have ⟨hlt, e⟩ := List.getElem?_eq_some_iff.1 hc
      rw [List.drop_eq_getElem_cons hlt, e, explore]
      cases hall : d.insertAll? (next c) with
      | error _ =>
        rw [hall] at h
        cases h
        exact (insertAll?_eq_error hall).of_isPrefix isPrefix_explore
      | ok d₁ =>
        rw [hall] at h
        have hd₁ := insertAll?_eq_ok hall
        have h := ih h
        rwa [hd₁, List.drop_append_of_le_length hlt] at h

/-- What is reached from `start`, in the order of discovery. The labels determine the elements
(`search_eq_explore`), and serve to find them. -/
def search (label : α → κ) (next : α → List α) (fuel : Nat) (start : α) : List α :=
  match discover next fuel (Numbering.ofList label [start]) 0 with
  | .ok d => d.toList
  | .error _ => []

theorem search_eq_explore (hlabel : ∀ a b, label a = label b → a = b) :
    search label next fuel a = explore next fuel [a] [a] := by
  unfold search
  cases h : discover next fuel (Numbering.ofList label [a]) 0 with
  | ok d => simpa using discover_eq_ok h
  | error e =>
    obtain ⟨_, _, _, _, _, hl, hne⟩ := discover_eq_error h
    exact absurd (hlabel _ _ hl) hne

end Chomsky
