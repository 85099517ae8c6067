import Chomsky.Data.BitField
import Chomsky.StateSet

/-! # Sets of states as bits

A set of states is a field of bits in which those of the members are set. States have numbers of 32
bits. The field grows with the members, and how long it is cannot be seen from the members.
-/

namespace Chomsky

/-- A set of states whose members are the bits that are set. -/
structure StateBits (B : Type) where
  bits : B

namespace StateBits
variable {B : Type} [BitField B]

/-- The set without members, with room for the states below a number. -/
def withCapacity (capacity : Nat) : StateBits B := ⟨BitField.ofLength capacity⟩

instance : EmptyCollection (StateBits B) := ⟨withCapacity 0⟩
instance : Inhabited (StateBits B) := ⟨∅⟩

/-- Add a state, and tell whether it is new. -/
def insert? (s : StateBits B) (q : UInt32) : Option (Bool × StateBits B) :=
  (BitField.put? (BitField.grow s.bits (q.toNat + 1)) q.toNat).map
    fun (present, bits) => (!present, ⟨bits⟩)

def extend? (s : StateBits B) (states : List UInt32) : Option (StateBits B) :=
  states.foldlM (fun s q => (s.insert? q).map Prod.snd) s

def ofList? (states : List UInt32) : Option (StateBits B) := extend? ∅ states

def singleton? (q : UInt32) (capacity : Nat) : Option (StateBits B) :=
  ((withCapacity capacity).insert? q).map Prod.snd

def contains (s : StateBits B) (q : UInt32) : Bool := BitField.test s.bits q.toNat

def isEmpty (s : StateBits B) : Bool := BitField.isClear s.bits

def size (s : StateBits B) : Nat := BitField.count s.bits

def toList (s : StateBits B) : List UInt32 := (BitField.ones s.bits).map Nat.toUInt32

def union (s t : StateBits B) : StateBits B := ⟨BitField.union s.bits t.bits⟩

def inter (s t : StateBits B) : StateBits B := ⟨BitField.inter s.bits t.bits⟩

def diff (s t : StateBits B) : StateBits B := ⟨BitField.diff s.bits t.bits⟩

instance : Union (StateBits B) := ⟨union⟩
instance : Inter (StateBits B) := ⟨inter⟩
instance : SDiff (StateBits B) := ⟨diff⟩

def intersects (s t : StateBits B) : Bool := !BitField.isDisjoint s.bits t.bits

/-- Sets are compared by their members. -/
instance : BEq (StateBits B) := ⟨fun s t => s.toList == t.toList⟩

def toStateSet (s : StateBits B) : StateSet := .ofList (s.toList.map UInt32.toNat)

end StateBits

/-- A field of bits of which those that are set are listed. -/
structure SparseBits where
  length : Nat
  places : StateSet
  lt_length : ∀ i ∈ places, i < length := by simp

namespace SparseBits

def put? (b : SparseBits) (i : Nat) : Option (Bool × SparseBits) :=
  if h : i < b.length then
    some (decide (i ∈ b.places), {
      length := b.length
      places := b.places.insert i
      lt_length := fun j hj => (StateSet.mem_insert.1 hj).elim (· ▸ h) (b.lt_length j) })
  else none

instance : BitField SparseBits where
  ofLength n := { length := n, places := ∅ }
  length := length
  test b i := decide (i ∈ b.places)
  grow b n := {
    length := max b.length n
    places := b.places
    lt_length := fun i hi => Nat.lt_of_lt_of_le (b.lt_length i hi) (Nat.le_max_left ..) }
  put? := put?
  isClear b := b.places.isEmpty
  count b := b.places.size
  ones b := b.places.toList
  union b c := {
    length := max b.length c.length
    places := b.places ∪ c.places
    lt_length := fun i hi => (StateSet.mem_union.1 hi).elim
      (fun h => Nat.lt_of_lt_of_le (b.lt_length i h) (Nat.le_max_left ..))
      (fun h => Nat.lt_of_lt_of_le (c.lt_length i h) (Nat.le_max_right ..)) }
  inter b c := {
    length := min b.length c.length
    places := b.places ∩ c.places
    lt_length := fun i hi => Nat.lt_min.2
      ⟨b.lt_length i (StateSet.mem_inter.1 hi).1, c.lt_length i (StateSet.mem_inter.1 hi).2⟩ }
  diff b c := {
    length := b.length
    places := b.places \ c.places
    lt_length := fun i hi => b.lt_length i (StateSet.mem_sdiff.1 hi).1 }
  isDisjoint b c := !b.places.intersects c.places

end SparseBits
end Chomsky
