import Chomsky.StateSet.Bits
import Mathlib.Data.Finset.Card
import Mathlib.Data.Finset.Dedup
import Mathlib.Data.Finset.Lattice.Basic
import Mathlib.Data.Finset.SDiff
import Mathlib.Data.List.Nodup

/-! # Bits represent sets

Bits represent a finite set of states if they are set at its members and nowhere else
(`StateBits.Represents`). Every operation does with the bits what it does with the sets, and what is
read off the bits is true of the set (`StateBits.Represents.shows`), whatever the lengths of the
fields are.
-/

namespace Chomsky

open BitField LawfulBitField

theorem countP_range_eq_length {l : List Nat} {n : Nat} {p : Nat → Bool}
    (hl : l.Pairwise (· < ·)) (h : ∀ i, i ∈ l ↔ i < n ∧ p i) :
    (List.range n).countP p = l.length := by
  have hperm : ((List.range n).filter p).Perm l := by
    refine (List.perm_ext_iff_of_nodup (List.nodup_range.filter p) (hl.imp Nat.ne_of_lt)).2 ?_
    intro i
    rw [List.mem_filter, List.mem_range, h]
  rw [List.countP_eq_length_filter, hperm.length_eq]

theorem SparseBits.test_iff {b : SparseBits} {i : Nat} : test b i ↔ i ∈ b.places :=
  decide_eq_true_iff

open SparseBits in
instance : LawfulBitField SparseBits where
  not_test_ofLength n i := by
    rw [test_iff]
    exact StateSet.not_mem_empty
  lt_length {b i} h := b.lt_length i (test_iff.1 h)
  length_grow b n := rfl
  test_grow b n i := rfl
  put?_of_lt {b i} h := by
    refine ⟨_, dif_pos h, fun j => ?_⟩
    rw [test_iff, test_iff]
    exact StateSet.mem_insert
  isClear_iff b := by
    simp only [test_iff]
    exact StateSet.isEmpty_iff
  count_eq b := by
    refine (countP_range_eq_length b.places.ascending fun i => ?_).symm
    rw [test_iff]
    exact ⟨fun hi => ⟨b.lt_length i hi, hi⟩, And.right⟩
  mem_ones := test_iff.symm
  ascending_ones b := b.places.ascending
  test_union b c i := by
    simp only [test_iff]
    exact StateSet.mem_union
  test_inter b c i := by
    simp only [test_iff]
    exact StateSet.mem_inter
  test_diff b c i := by
    simp only [test_iff]
    exact StateSet.mem_sdiff
  isDisjoint_iff b c := by
    simp only [test_iff, ← not_exists, ← StateSet.intersects_iff, Bool.not_eq_true]
    exact (Bool.not_eq_true' _).to_iff

namespace StateBits

variable {B : Type} [BitField B] {s t : StateBits B} {F G : Finset UInt32} {q : UInt32}

/-- The bits of the members are set, and no others. -/
def Represents (s : StateBits B) (F : Finset UInt32) : Prop :=
  ∀ i, test s.bits i ↔ ∃ q ∈ F, q.toNat = i

theorem Represents.test_toNat (h : s.Represents F) : test s.bits q.toNat ↔ q ∈ F := by
  rw [h]
  constructor
  · rintro ⟨p, hp, hpq⟩
    exact UInt32.toNat_inj.1 hpq ▸ hp
  · exact fun hq => ⟨q, hq, rfl⟩

section Operations

variable [LawfulBitField B]

theorem represents_withCapacity (capacity : Nat) :
    (withCapacity capacity : StateBits B).Represents ∅ := by
  intro i
  refine iff_of_false (not_test_ofLength capacity i) ?_
  rintro ⟨q, hq, -⟩
  exact Finset.notMem_empty q hq

theorem Represents.exists_insert? (h : s.Represents F) (q : UInt32) :
    ∃ t, s.insert? q = some (decide (q ∉ F), t) ∧ t.Represents (insert q F) := by
  have hlt : q.toNat < length (grow s.bits (q.toNat + 1)) := by
    rw [length_grow]
    exact Nat.lt_of_lt_of_le (Nat.lt_succ_self _) (Nat.le_max_right _ _)
  obtain ⟨c, hput, hc⟩ := put?_of_lt hlt
  refine ⟨⟨c⟩, ?_, fun i => ?_⟩
  · rw [insert?, hput, test_grow, Option.map_some, decide_not]
    have hold : test s.bits q.toNat = decide (q ∈ F) :=
      Bool.eq_iff_iff.2 (h.test_toNat.trans decide_eq_true_iff.symm)
    rw [hold]
  · rw [hc, test_grow, h]
    simp only [Finset.exists_mem_insert, eq_comm]

theorem Represents.exists_extend? (h : s.Represents F) (states : List UInt32) :
    ∃ t, s.extend? states = some t ∧ t.Represents (F ∪ states.toFinset) := by
  induction states generalizing s F with
  | nil => exact ⟨s, rfl, by rwa [List.toFinset_nil, Finset.union_empty]⟩
  | cons q states ih =>
    obtain ⟨u, hu, hrep⟩ := h.exists_insert? q
    obtain ⟨t, ht, hrep⟩ := ih hrep
    refine ⟨t, ?_, ?_⟩
    · rw [extend?, List.foldlM_cons, hu]
      exact ht
    · rwa [List.toFinset_cons, Finset.union_insert, ← Finset.insert_union]

theorem exists_singleton? (q : UInt32) (capacity : Nat) :
    ∃ t : StateBits B, singleton? q capacity = some t ∧ t.Represents {q} := by
  obtain ⟨t, ht, hrep⟩ := (represents_withCapacity (B := B) capacity).exists_insert? q
  exact ⟨t, by rw [singleton?, ht]; rfl, by rwa [insert_empty_eq] at hrep⟩

theorem exists_ofList? (states : List UInt32) :
    ∃ t : StateBits B, ofList? states = some t ∧ t.Represents states.toFinset := by
  obtain ⟨t, ht, hrep⟩ := (represents_withCapacity (B := B) 0).exists_extend? states
  exact ⟨t, ht, by rwa [Finset.empty_union] at hrep⟩

theorem Represents.union (hs : s.Represents F) (ht : t.Represents G) :
    (s ∪ t).Represents (F ∪ G) := by
  intro i
  refine (test_union s.bits t.bits i).trans ?_
  rw [hs, ht]
  simp only [Finset.mem_union, or_and_right, exists_or]

theorem Represents.inter (hs : s.Represents F) (ht : t.Represents G) :
    (s ∩ t).Represents (F ∩ G) := by
  intro i
  refine (test_inter s.bits t.bits i).trans ?_
  constructor
  · rintro ⟨hsi, hti⟩
    obtain ⟨q, hq, rfl⟩ := (hs i).1 hsi
    exact ⟨q, Finset.mem_inter.2 ⟨hq, ht.test_toNat.1 hti⟩, rfl⟩
  · rintro ⟨q, hq, rfl⟩
    rw [hs.test_toNat, ht.test_toNat]
    exact Finset.mem_inter.1 hq

theorem Represents.diff (hs : s.Represents F) (ht : t.Represents G) :
    (s \ t).Represents (F \ G) := by
  intro i
  refine (test_diff s.bits t.bits i).trans ?_
  constructor
  · rintro ⟨hsi, hti⟩
    obtain ⟨q, hq, rfl⟩ := (hs i).1 hsi
    exact ⟨q, Finset.mem_sdiff.2 ⟨hq, mt ht.test_toNat.2 hti⟩, rfl⟩
  · rintro ⟨q, hq, rfl⟩
    rw [hs.test_toNat, ht.test_toNat]
    exact Finset.mem_sdiff.1 hq

end Operations

section Observations

variable [LawfulBitField B]

theorem Represents.isEmpty_iff (h : s.Represents F) : s.isEmpty ↔ F = ∅ := by
  rw [isEmpty, isClear_iff, Finset.eq_empty_iff_forall_notMem]
  constructor
  · exact fun hclear q hq => hclear _ (h.test_toNat.2 hq)
  · intro hempty i hi
    obtain ⟨q, hq, -⟩ := (h i).1 hi
    exact hempty q hq

theorem Represents.intersects_iff (hs : s.Represents F) (ht : t.Represents G) :
    s.intersects t ↔ ∃ q, q ∈ F ∧ q ∈ G := by
  rw [intersects, Bool.not_eq_true', ← Bool.not_eq_true, isDisjoint_iff, not_forall_not]
  constructor
  · rintro ⟨i, hsi, hti⟩
    obtain ⟨q, hq, rfl⟩ := (hs i).1 hsi
    exact ⟨q, hq, ht.test_toNat.1 hti⟩
  · rintro ⟨q, hqs, hqt⟩
    exact ⟨q.toNat, hs.test_toNat.2 hqs, ht.test_toNat.2 hqt⟩

/-- The members have numbers of 32 bits, so no two bits are read as the same state. -/
theorem Represents.toNat_toUInt32 (h : s.Represents F) {i : Nat} (hi : i ∈ ones s.bits) :
    i.toUInt32.toNat = i := by
  obtain ⟨q, -, rfl⟩ := (h i).1 (mem_ones.1 hi)
  rw [Nat.toUInt32, UInt32.ofNat_toNat]

theorem Represents.mem_toList (h : s.Represents F) : q ∈ s.toList ↔ q ∈ F := by
  rw [toList, List.mem_map]
  constructor
  · rintro ⟨i, hi, rfl⟩
    rw [← h.test_toNat, h.toNat_toUInt32 hi]
    exact mem_ones.1 hi
  · exact fun hq => ⟨q.toNat, mem_ones.2 (h.test_toNat.2 hq), UInt32.ofNat_toNat⟩

theorem Represents.ascending_toList (h : s.Represents F) : s.toList.Pairwise (· < ·) := by
  rw [toList, List.pairwise_map]
  refine (ascending_ones s.bits).imp_of_mem fun hi hj hlt => ?_
  rwa [UInt32.lt_iff_toNat_lt, h.toNat_toUInt32 hi, h.toNat_toUInt32 hj]

theorem Represents.nodup_toList (h : s.Represents F) : s.toList.Nodup :=
  h.ascending_toList.imp UInt32.ne_of_lt

theorem Represents.size_eq (h : s.Represents F) : s.size = F.card := by
  have hF : s.toList.toFinset = F := by
    ext q
    rw [List.mem_toFinset, h.mem_toList]
  have hcount : s.size = (ones s.bits).length := by
    refine (count_eq s.bits).trans ?_
    refine countP_range_eq_length (ascending_ones s.bits) fun i => ?_
    rw [mem_ones]
    exact ⟨fun hi => ⟨lt_length hi, hi⟩, And.right⟩
  rw [hcount, ← hF, List.toFinset_card_of_nodup h.nodup_toList, toList, List.length_map]

theorem Represents.toList_eq_iff (hs : s.Represents F) (ht : t.Represents G) :
    s.toList = t.toList ↔ F = G := by
  constructor
  · intro h
    ext q
    rw [← hs.mem_toList, ← ht.mem_toList, h]
  · rintro rfl
    have hperm : s.toList.Perm t.toList :=
      (List.perm_ext_iff_of_nodup hs.nodup_toList ht.nodup_toList).2 fun q => by
        rw [hs.mem_toList, ht.mem_toList]
    exact hperm.eq_of_pairwise (fun p q _ _ hpq hqp => absurd hqp (UInt32.lt_asymm hpq))
      hs.ascending_toList ht.ascending_toList

theorem Represents.beq_iff (hs : s.Represents F) (ht : t.Represents G) : (s == t) ↔ F = G :=
  (beq_iff_eq (α := List UInt32)).trans (hs.toList_eq_iff ht)

theorem Represents.toList_toStateSet (h : s.Represents F) :
    s.toStateSet.toList = s.toList.map UInt32.toNat := by
  refine StateSet.toList_injective s.toStateSet.ascending ?_ fun q => StateSet.mem_ofList
  exact List.pairwise_map.2 (h.ascending_toList.imp UInt32.lt_iff_toNat_lt.1)

/-- What is read off bits is true of a finite set. -/
structure Shows (s : StateBits B) (F : Finset UInt32) : Prop where
  contains_iff : ∀ q, s.contains q ↔ q ∈ F
  isEmpty_iff : s.isEmpty ↔ F = ∅
  size_eq : s.size = F.card
  insert?_eq : ∀ q, ∃ t, s.insert? q = some (decide (q ∉ F), t)
  mem_toList : ∀ q, q ∈ s.toList ↔ q ∈ F
  ascending_toList : s.toList.Pairwise (· < ·)
  toList_toStateSet : s.toStateSet.toList = s.toList.map UInt32.toNat

theorem Represents.shows (h : s.Represents F) : s.Shows F where
  contains_iff _ := h.test_toNat
  isEmpty_iff := h.isEmpty_iff
  size_eq := h.size_eq
  insert?_eq q := (h.exists_insert? q).imp fun _ => And.left
  mem_toList _ := h.mem_toList
  ascending_toList := h.ascending_toList
  toList_toStateSet := h.toList_toStateSet

end Observations

end StateBits
end Chomsky
