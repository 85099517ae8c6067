import Chomsky.Data.Distinct

/-! # Unused names

The first name of a numbered sequence that is free, where finitely many are in use. If the
sequence does not repeat, there always is one (`not_used_leastUnused`).
-/

namespace Chomsky

/-- The least number from `n` on whose name is not in use, sought for `fuel` steps. -/
def searchUnused (used : String → Bool) (name : Nat → String) : Nat → Nat → Nat
  | 0, n => n
  | fuel + 1, n => if used (name n) then searchUnused used name fuel (n + 1) else n

/-- The least number from `n` on whose name is not in use, if at most `count` names are: among
one name more, one is free. -/
def leastUnused (used : String → Bool) (count : Nat) (name : Nat → String) (n : Nat) : Nat :=
  searchUnused used name count n

def quoted (base : String) (n : Nat) : String := base ++ String.ofList (List.replicate n '\'')

/-- A name with as few quotes after it as make it unused, at most `fuel` of them. -/
def withQuotes (used : String → Bool) : Nat → String → String
  | 0, name => name
  | fuel + 1, name => if used name then withQuotes used fuel (name.push '\'') else name

def numbered (stem : String) (n : Nat) : String := stem ++ toString n

variable {used : String → Bool} {name : Nat → String} {names : List String} {count : Nat}

theorem used_of_lt_searchUnused {fuel n m : Nat} (hn : n ≤ m)
    (hm : m < searchUnused used name fuel n) : used (name m) := by
  induction fuel generalizing n with
  | zero => exact absurd hm (Nat.not_lt.2 hn)
  | succ fuel ih =>
    unfold searchUnused at hm
    split at hm
    · next h =>
      rcases Nat.eq_or_lt_of_le hn with rfl | hlt
      · exact h
      · exact ih hlt hm
    · exact absurd hm (Nat.not_lt.2 hn)

theorem not_used_searchUnused_or (fuel n : Nat) :
    ¬used (name (searchUnused used name fuel n)) ∨ searchUnused used name fuel n = n + fuel := by
  induction fuel generalizing n with
  | zero => exact Or.inr rfl
  | succ fuel ih =>
    unfold searchUnused
    split
    · rcases ih (n + 1) with h | h
      · exact Or.inl h
      · exact Or.inr (by omega)
    · next h => exact Or.inl h

/-- The name found is free, since a sequence without repetitions outlasts the names in use. -/
theorem not_used_leastUnused (hname : ∀ {i j}, name i = name j → i = j)
    (hused : ∀ s, used s → s ∈ names) (hcount : names.length ≤ count) (n : Nat) :
    ¬used (name (leastUnused used count name n)) := by
  intro h
  rcases @not_used_searchUnused_or used name count n with h' | h'
  · exact h' h
  · have hnodup : ((List.range' n (count + 1)).map name).Nodup :=
      List.Pairwise.map name (fun _ _ hij e => hij (hname e)) List.nodup_range'
    have hle := length_le_of_nodup hnodup (m := names) fun a ha => by
      obtain ⟨i, hi, rfl⟩ := List.mem_map.1 ha
      have ⟨hi₁, hi₂⟩ := List.mem_range'_1.1 hi
      refine hused _ ?_
      rcases Nat.lt_or_ge i (n + count) with hlt | hge
      · exact used_of_lt_searchUnused hi₁ (h'.symm ▸ hlt)
      · have : i = leastUnused used count name n := by unfold leastUnused; omega
        exact this ▸ h
    rw [List.length_map, List.length_range'] at hle
    omega

theorem quoted_zero (base : String) : quoted base 0 = base := by
  simp [quoted]

theorem quoted_succ (base : String) (n : Nat) :
    quoted base (n + 1) = (quoted base n).push '\'' := by
  refine String.toList_inj.1 ?_
  simp [quoted, List.replicate_succ']

theorem withQuotes_quoted (base : String) (fuel n : Nat) :
    withQuotes used fuel (quoted base n) =
      quoted base (searchUnused used (quoted base) fuel n) := by
  induction fuel generalizing n with
  | zero => rfl
  | succ fuel ih =>
    unfold withQuotes searchUnused
    split
    · rw [← quoted_succ, ih]
    · rfl

theorem withQuotes_eq (base : String) :
    withQuotes used count base = quoted base (leastUnused used count (quoted base) 0) := by
  rw [leastUnused, ← withQuotes_quoted, quoted_zero]

theorem quoted_injective (base : String) {m n : Nat} (h : quoted base m = quoted base n) :
    m = n := by
  have h := congrArg (List.length ∘ String.toList) h
  simpa [quoted] using h

theorem numbered_injective (stem : String) {m n : Nat} (h : numbered stem m = numbered stem n) :
    m = n := by
  have h := congrArg String.toList h
  simp only [numbered, String.toList_append, List.append_cancel_left_eq, Nat.toString_eq_repr,
    Nat.toList_repr] at h
  have h := congrArg (Nat.ofDigitChars 10 · 0) h
  simpa using h

end Chomsky
