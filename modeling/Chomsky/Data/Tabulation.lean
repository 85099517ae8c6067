/-! # Stored functions

Functions of one or two numbers whose first values are stored. Storing changes no value
(`storedRow_tabulateRow`, `stored_tabulate`).
-/

namespace Chomsky
variable {α : Type u}

def tabulateRow (n : Nat) (f : Nat → α) : Array α := (Array.range n).map f

def storedRow (row : Array α) (f : Nat → α) (j : Nat) : α :=
  match row[j]? with
  | none => f j
  | some a => a

def tabulate (rows columns : Nat) (f : Nat → Nat → α) : Array (Array α) :=
  tabulateRow rows fun i => tabulateRow columns (f i)

/-- The stored value, or that of `f` where none is stored. -/
def stored (table : Array (Array α)) (f : Nat → Nat → α) (i j : Nat) : α :=
  match table[i]? with
  | none => f i j
  | some row => storedRow row (f i) j

theorem getElem?_tabulateRow {n : Nat} {f : Nat → α} {j : Nat} {a : α}
    (h : (tabulateRow n f)[j]? = some a) : a = f j := by
  simp only [tabulateRow, Array.getElem?_map, Option.map_eq_some_iff] at h
  obtain ⟨k, hk, rfl⟩ := h
  have hk := (Array.getElem?_eq_some_iff.1 hk).2
  rw [Array.getElem_range] at hk
  rw [hk]

theorem storedRow_tabulateRow (n : Nat) (f : Nat → α) : storedRow (tabulateRow n f) f = f := by
  funext j
  unfold storedRow
  split
  · rfl
  · next h => exact getElem?_tabulateRow h

theorem stored_tabulate (rows columns : Nat) (f : Nat → Nat → α) :
    stored (tabulate rows columns f) f = f := by
  funext i j
  unfold stored
  split
  · rfl
  · next h => rw [getElem?_tabulateRow h, storedRow_tabulateRow]

end Chomsky
