import Chomsky.Data.Distinct
import Chomsky.Data.Numbering

/-! # Ordered sets

Finite sets that keep the order in which their members were added. The position of a member
serves as its index; `get?_idxOf?_iff` says that index and member determine each other.
-/

namespace Chomsky

/-- A finite set listed in the order of insertion. -/
structure OrderedSet (α : Type u) [Ord α] [Std.TransOrd α] where
  members : Numbering (id : α → α)

namespace OrderedSet
variable {α : Type u} [Ord α] [Std.TransOrd α] {s : OrderedSet α} {a b : α} {as : List α}

def toList (s : OrderedSet α) : List α := s.members.toList

def empty : OrderedSet α := ⟨∅⟩

instance : EmptyCollection (OrderedSet α) := ⟨empty⟩
instance : Inhabited (OrderedSet α) := ⟨empty⟩
instance : Membership α (OrderedSet α) := ⟨fun s a => a ∈ s.toList⟩

def size (s : OrderedSet α) : Nat := s.members.size

def get? (s : OrderedSet α) (i : Nat) : Option α := s.members.get? i

def idxOf? (s : OrderedSet α) (a : α) : Option Nat := s.members.place? a

theorem nodup (s : OrderedSet α) : s.toList.Nodup := s.members.nodup_toList

theorem mem_def : a ∈ s ↔ a ∈ s.toList := Iff.rfl
@[simp] theorem toList_empty : (∅ : OrderedSet α).toList = [] := rfl
@[simp] theorem not_mem_empty : a ∉ (∅ : OrderedSet α) := List.not_mem_nil
@[simp] theorem length_toList : s.toList.length = s.size := s.members.length_toList
theorem getElem?_toList {i : Nat} : s.toList[i]? = s.get? i := s.members.getElem?_toList

theorem hasLabel_iff_mem : s.members.hasLabel a ↔ a ∈ s := by
  rw [Numbering.hasLabel_iff, Numbering.labels, List.map_id, mem_def, toList]

theorem get?_idxOf?_iff {i : Nat} : s.idxOf? a = some i ↔ s.get? i = some a := by
  rw [idxOf?, Numbering.place?_eq_some_iff, Numbering.labels, List.map_id, get?,
    Numbering.getElem?_toList]

instance : Decidable (a ∈ s) := decidable_of_iff (s.members.hasLabel a) hasLabel_iff_mem

theorem idxOf?_isSome_iff : (s.idxOf? a).isSome ↔ a ∈ s := hasLabel_iff_mem

theorem mem_iff_get? : a ∈ s ↔ ∃ i, s.get? i = some a := by
  rw [← idxOf?_isSome_iff, Option.isSome_iff_exists]
  simp only [get?_idxOf?_iff]

/-- Equality without regard to order. -/
def sameMembers (s t : OrderedSet α) : Bool :=
  s.toList.all (· ∈ t) && t.toList.all (· ∈ s)

theorem sameMembers_iff {t : OrderedSet α} : s.sameMembers t ↔ ∀ x, x ∈ s ↔ x ∈ t := by
  simp only [sameMembers, Bool.and_eq_true, List.all_eq_true, decide_eq_true_eq]
  exact ⟨fun h x => ⟨h.1 x, h.2 x⟩, fun h => ⟨fun x => (h x).1, fun x => (h x).2⟩⟩

variable [Std.LawfulEqOrd α]

@[ext] theorem ext {s t : OrderedSet α} (h : s.toList = t.toList) : s = t := by
  cases s; cases t; congr; exact Numbering.ext h

instance [DecidableEq α] : DecidableEq (OrderedSet α) := fun s t =>
  decidable_of_iff (s.members = t.members) ⟨fun h => by cases s; congr, fun h => h ▸ rfl⟩

def insert (s : OrderedSet α) (a : α) : OrderedSet α := ⟨s.members.insert a⟩

def insertAll (s : OrderedSet α) (as : List α) : OrderedSet α := as.foldl insert s

def ofList (as : List α) : OrderedSet α := insertAll ∅ as

theorem toList_insert (s : OrderedSet α) (a : α) :
    (s.insert a).toList = if a ∈ s then s.toList else s.toList ++ [a] := by
  rw [insert, toList, Numbering.toList_insert]
  simp only [id_eq, hasLabel_iff_mem]
  rfl

@[simp] theorem mem_insert : b ∈ s.insert a ↔ b ∈ s ∨ b = a := by
  rw [mem_def, toList_insert]
  split
  · next h => exact ⟨Or.inl, fun h' => h'.elim id (· ▸ h)⟩
  · simp [mem_def]

@[simp] theorem mem_insertAll : b ∈ s.insertAll as ↔ b ∈ s ∨ b ∈ as := by
  induction as generalizing s with
  | nil => simp [insertAll]
  | cons a as ih =>
    have : s.insertAll (a :: as) = (s.insert a).insertAll as := rfl
    rw [this, ih]
    simp [or_assoc]

@[simp] theorem mem_ofList : b ∈ ofList as ↔ b ∈ as := by
  simp [ofList]

theorem toList_insertAll [DecidableEq α] :
    (s.insertAll as).toList = s.toList ++ unseen s.toList as := by
  induction as generalizing s with
  | nil => simp [insertAll, unseen_nil]
  | cons a as ih =>
    rw [show s.insertAll (a :: as) = (s.insert a).insertAll as from rfl, ih, toList_insert]
    by_cases ha : a ∈ s
    · rw [if_pos ha, unseen_cons_of_mem ha]
    · rw [if_neg ha, unseen_cons_of_not_mem ha]
      simp

theorem toList_ofList [DecidableEq α] (as : List α) : (ofList as).toList = as.eraseDups := by
  rw [ofList, toList_insertAll]
  simp [unseen, List.filter_eq_self.2]

theorem toList_insertAll_of_nodup (h : (s.toList ++ as).Nodup) :
    (s.insertAll as).toList = s.toList ++ as := by
  induction as generalizing s with
  | nil => simp [insertAll]
  | cons a as ih =>
    have ha : a ∉ s := fun ha => (List.nodup_append.1 h).2.2 a ha a List.mem_cons_self rfl
    have hins := toList_insert s a
    rw [if_neg ha] at hins
    rw [show s.insertAll (a :: as) = (s.insert a).insertAll as from rfl, ih, hins,
      List.append_assoc, List.singleton_append]
    rwa [hins, List.append_assoc, List.singleton_append]

theorem toList_ofList_of_nodup (h : as.Nodup) : (ofList as).toList = as :=
  toList_insertAll_of_nodup (s := ∅) h

theorem ofList_toList (s : OrderedSet α) : ofList s.toList = s :=
  ext (toList_ofList_of_nodup s.nodup)

theorem insertAll_append (as bs : List α) :
    s.insertAll (as ++ bs) = (s.insertAll as).insertAll bs :=
  List.foldl_append

theorem toList_insertAll_map {β : Type v} [Ord β] [Std.TransOrd β] [Std.LawfulEqOrd β]
    {t : OrderedSet β} {f : α → β} (ht : t.toList = s.toList.map f)
    (hf : ∀ a ∈ s.toList ++ as, ∀ b ∈ s.toList ++ as, f a = f b → a = b) :
    (t.insertAll (as.map f)).toList = (s.insertAll as).toList.map f := by
  induction as generalizing s t with
  | nil => exact ht
  | cons a as ih =>
    have hmem : f a ∈ t ↔ a ∈ s := by
      rw [mem_def, ht, List.mem_map]
      constructor
      · rintro ⟨b, hb, heq⟩
        exact hf b (List.mem_append_left _ hb) a (by simp) heq ▸ hb
      · exact fun ha => ⟨a, ha, rfl⟩
    refine ih (s := s.insert a) (t := t.insert (f a)) ?_ ?_
    · rw [toList_insert, toList_insert, apply_ite (List.map f), ← ht]
      simp only [hmem, List.map_append, List.map_cons, List.map_nil, ht]
    · have hsub : ∀ b ∈ (s.insert a).toList ++ as, b ∈ s.toList ++ a :: as := by
        intro b hb
        rw [List.mem_append, ← mem_def, mem_insert] at hb
        rw [List.mem_append, List.mem_cons, ← mem_def, ← or_assoc]
        exact hb
      exact fun b hb c hc => hf b (hsub b hb) c (hsub c hc)

theorem toList_ofList_map {β : Type v} [Ord β] [Std.TransOrd β] [Std.LawfulEqOrd β] {f : α → β}
    (hf : ∀ a ∈ as, ∀ b ∈ as, f a = f b → a = b) :
    (ofList (as.map f)).toList = (ofList as).toList.map f :=
  toList_insertAll_map (s := ∅) rfl hf

theorem toList_isPrefix_insertAll (as : List α) : s.toList <+: (s.insertAll as).toList := by
  induction as generalizing s with
  | nil => exact List.prefix_rfl
  | cons a as ih =>
    refine List.IsPrefix.trans ?_ (ih (s := s.insert a))
    rw [toList_insert]
    split
    · exact List.prefix_rfl
    · exact List.prefix_append _ _

end OrderedSet

def distinct {α : Type u} [Ord α] [Std.TransOrd α] [Std.LawfulEqOrd α] (as : List α) : List α :=
  (OrderedSet.ofList as).toList

@[simp] theorem mem_distinct {α : Type u} [Ord α] [Std.TransOrd α] [Std.LawfulEqOrd α]
    {a : α} {as : List α} : a ∈ distinct as ↔ a ∈ as :=
  OrderedSet.mem_def.symm.trans OrderedSet.mem_ofList

theorem nodup_distinct {α : Type u} [Ord α] [Std.TransOrd α] [Std.LawfulEqOrd α] {as : List α} :
    (distinct as).Nodup := OrderedSet.nodup _

theorem distinct_eq_eraseDups {α : Type u} [Ord α] [Std.TransOrd α] [Std.LawfulEqOrd α]
    [DecidableEq α] (as : List α) : distinct as = as.eraseDups :=
  OrderedSet.toList_ofList as

theorem distinct_eq_unseen {α : Type u} [Ord α] [Std.TransOrd α] [Std.LawfulEqOrd α]
    [DecidableEq α] (as : List α) : distinct as = unseen [] as := by
  rw [distinct, OrderedSet.ofList, OrderedSet.toList_insertAll]
  rfl

end Chomsky
