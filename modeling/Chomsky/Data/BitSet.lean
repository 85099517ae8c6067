/-! # Sets as bits

A finite set of numbers is the number whose bits are set at its members. Whether two sets meet
is one operation on their bits (`meets_iff`).
-/

namespace Chomsky

/-- A finite set of numbers. -/
structure BitSet where
  bits : Nat
deriving DecidableEq

namespace BitSet
variable {s t : BitSet} {i j : Nat}

instance : EmptyCollection BitSet := ⟨⟨0⟩⟩
instance : Inhabited BitSet := ⟨∅⟩
instance : Membership Nat BitSet := ⟨fun s i => s.bits.testBit i⟩
instance : Decidable (i ∈ s) := inferInstanceAs (Decidable (s.bits.testBit i = true))

def insert (s : BitSet) (i : Nat) : BitSet := ⟨s.bits ||| 1 <<< i⟩

def meets (s t : BitSet) : Bool := s.bits &&& t.bits != 0

theorem mem_def : i ∈ s ↔ s.bits.testBit i := Iff.rfl

@[simp] theorem not_mem_empty : i ∉ (∅ : BitSet) := by
  rw [mem_def, show (∅ : BitSet).bits = 0 from rfl]
  simp

@[simp] theorem mem_insert : j ∈ s.insert i ↔ j ∈ s ∨ j = i := by
  rw [mem_def, insert, Nat.testBit_or, Nat.one_shiftLeft, Nat.testBit_two_pow, Bool.or_eq_true,
    decide_eq_true_eq, eq_comm (a := i)]
  rfl

theorem meets_iff : s.meets t ↔ ∃ i, i ∈ s ∧ i ∈ t := by
  rw [meets, bne_iff_ne, Ne, Nat.eq_iff_testBit_eq]
  simp [mem_def]

@[ext] theorem ext (h : ∀ i, i ∈ s ↔ i ∈ t) : s = t := by
  obtain ⟨x⟩ := s
  obtain ⟨y⟩ := t
  congr
  exact Nat.eq_of_testBit_eq fun i => Bool.eq_iff_iff.2 (h i)

end BitSet
end Chomsky
