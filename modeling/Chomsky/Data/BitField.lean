/-! # Fields of bits

Bits are numbered from zero on. A field has a length, which can grow, and all bits beyond it are
clear. Which bits are set after an operation is said by the laws (`LawfulBitField`); how they are
stored is left to the instances.
-/

namespace Chomsky

/-- Bits up to a length. -/
class BitField (B : Type) where
  /-- The field of a length that has all bits clear. -/
  ofLength : Nat → B
  length : B → Nat
  /-- Whether a bit is set. -/
  test : B → Nat → Bool
  /-- Lengthen a field, unless it is long enough. -/
  grow : B → Nat → B
  /-- Set a bit below the length, and tell whether it was set before. -/
  put? : B → Nat → Option (Bool × B)
  /-- Whether all bits are clear. -/
  isClear : B → Bool
  /-- How many bits are set. -/
  count : B → Nat
  /-- The bits that are set, in ascending order. -/
  ones : B → List Nat
  union : B → B → B
  inter : B → B → B
  diff : B → B → B
  /-- Whether no bit is set in both fields. -/
  isDisjoint : B → B → Bool

open BitField in
class LawfulBitField (B : Type) [BitField B] : Prop where
  not_test_ofLength (n i : Nat) : ¬test (ofLength n : B) i
  lt_length {b : B} {i : Nat} (h : test b i) : i < length b
  length_grow (b : B) (n : Nat) : length (grow b n) = max (length b) n
  test_grow (b : B) (n i : Nat) : test (grow b n) i = test b i
  put?_of_lt {b : B} {i : Nat} (h : i < length b) :
    ∃ c, put? b i = some (test b i, c) ∧ ∀ j, test c j ↔ j = i ∨ test b j
  isClear_iff (b : B) : isClear b ↔ ∀ i, ¬test b i
  count_eq (b : B) : count b = (List.range (length b)).countP (test b)
  mem_ones {b : B} {i : Nat} : i ∈ ones b ↔ test b i
  ascending_ones (b : B) : (ones b).Pairwise (· < ·)
  test_union (b c : B) (i : Nat) : test (union b c) i ↔ test b i ∨ test c i
  test_inter (b c : B) (i : Nat) : test (inter b c) i ↔ test b i ∧ test c i
  test_diff (b c : B) (i : Nat) : test (diff b c) i ↔ test b i ∧ ¬test c i
  isDisjoint_iff (b c : B) : isDisjoint b c ↔ ∀ i, ¬(test b i ∧ test c i)

end Chomsky
