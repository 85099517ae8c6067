/-! # Sets of states

A set of states is the strictly ascending list of its members, so that equal sets are the
same value (`StateSet.ext`) and every operation is known by its members.
-/

namespace Chomsky

abbrev StateId := Nat

/-- A finite set of states, listed in ascending order. -/
structure StateSet where
  toList : List StateId
  ascending : toList.Pairwise (· < ·)
deriving DecidableEq

namespace StateSet
variable {s t : StateSet} {q r : StateId}

def empty : StateSet := ⟨[], List.Pairwise.nil⟩

instance : EmptyCollection StateSet := ⟨empty⟩
instance : Inhabited StateSet := ⟨empty⟩
instance : Membership StateId StateSet := ⟨fun s q => q ∈ s.toList⟩
instance : Decidable (q ∈ s) := inferInstanceAs (Decidable (q ∈ s.toList))

theorem mem_def : q ∈ s ↔ q ∈ s.toList := Iff.rfl

def insertAscending (q : StateId) : List StateId → List StateId
  | [] => [q]
  | r :: l => if q < r then q :: r :: l else if q = r then r :: l else r :: insertAscending q l

theorem mem_insertAscending {l : List StateId} :
    r ∈ insertAscending q l ↔ r = q ∨ r ∈ l := by
  induction l with
  | nil => simp [insertAscending]
  | cons p l ih =>
    simp only [insertAscending]
    split
    · simp
    · split
      · next h => simp [h]
      · simp only [List.mem_cons, ih]
        exact or_left_comm

theorem pairwise_insertAscending {l : List StateId} (h : l.Pairwise (· < ·)) :
    (insertAscending q l).Pairwise (· < ·) := by
  induction l with
  | nil => simp [insertAscending]
  | cons p l ih =>
    have ⟨hp, hl⟩ := List.pairwise_cons.1 h
    simp only [insertAscending]
    split
    · next hq =>
      refine List.pairwise_cons.2 ⟨fun r hr => ?_, h⟩
      rcases List.mem_cons.1 hr with rfl | hr
      · exact hq
      · exact Nat.lt_trans hq (hp r hr)
    · next hq =>
      split
      · exact h
      · next hne =>
        refine List.pairwise_cons.2 ⟨fun r hr => ?_, ih hl⟩
        rcases mem_insertAscending.1 hr with rfl | hr
        · exact Nat.lt_of_le_of_ne (Nat.le_of_not_lt hq) (Ne.symm hne)
        · exact hp r hr

/-- Merge the ascending list of `q` and `l` with another one; `rest` merges `l` with a list. -/
def mergeHead (first both second : Bool) (q : StateId) (l : List StateId)
    (rest : List StateId → List StateId) : List StateId → List StateId
  | [] => if first then q :: l else []
  | r :: m =>
    if q < r then if first then q :: rest (r :: m) else rest (r :: m)
    else if r < q then
      if second then r :: mergeHead first both second q l rest m
      else mergeHead first both second q l rest m
    else if both then q :: rest m else rest m

/-- Merge two ascending lists. The flags tell whether to keep what only the first one, both,
or only the second one holds. -/
def mergeAscending (first both second : Bool) : List StateId → List StateId → List StateId
  | [] => fun m => if second then m else []
  | q :: l => mergeHead first both second q l (mergeAscending first both second l)

variable {first both second : Bool}

theorem mem_mergeAscending {l m : List StateId} (hl : l.Pairwise (· < ·))
    (hm : m.Pairwise (· < ·)) {q : StateId} :
    q ∈ mergeAscending first both second l m ↔
      q ∈ l ∧ q ∉ m ∧ first ∨ q ∈ l ∧ q ∈ m ∧ both ∨ q ∉ l ∧ q ∈ m ∧ second := by
  induction l generalizing m with
  | nil => cases second <;> simp [mergeAscending]
  | cons p l ih =>
    have ⟨hp, hl'⟩ := List.pairwise_cons.1 hl
    simp only [mergeAscending]
    induction m with
    | nil => cases first <;> simp [mergeHead]
    | cons r m ihm =>
      have ⟨hr, hm'⟩ := List.pairwise_cons.1 hm
      have := ihm hm'
      have := ih hl' hm
      have := ih hl' hm'
      unfold mergeHead
      grind

theorem pairwise_mergeAscending {l m : List StateId} (hl : l.Pairwise (· < ·))
    (hm : m.Pairwise (· < ·)) : (mergeAscending first both second l m).Pairwise (· < ·) := by
  induction l generalizing m with
  | nil => cases second <;> simp [mergeAscending, hm]
  | cons p l ih =>
    have ⟨hp, hl'⟩ := List.pairwise_cons.1 hl
    induction m with
    | nil =>
      cases first with
      | false => simp [mergeAscending, mergeHead]
      | true => exact hl
    | cons r m ihm =>
      have ⟨hr, hm'⟩ := List.pairwise_cons.1 hm
      have ih₁ := ih hl' hm
      have ih₂ := ih hl' hm'
      have ih₃ := ihm hm'
      have mem₁ := fun q => @mem_mergeAscending first both second l (r :: m) hl' hm q
      have mem₂ := fun q => @mem_mergeAscending first both second l m hl' hm' q
      have mem₃ := fun q => @mem_mergeAscending first both second (p :: l) m hl hm' q
      simp only [mergeAscending] at ih₃ mem₃ ⊢
      unfold mergeHead
      clear ih ihm
      split
      · split
        · refine List.pairwise_cons.2 ⟨fun q hq => ?_, ih₁⟩
          grind
        · exact ih₁
      · split
        · split
          · refine List.pairwise_cons.2 ⟨fun q hq => ?_, ih₃⟩
            grind
          · exact ih₃
        · split
          · refine List.pairwise_cons.2 ⟨fun q hq => ?_, ih₂⟩
            grind
          · exact ih₂

def insert (s : StateSet) (q : StateId) : StateSet :=
  ⟨insertAscending q s.toList, pairwise_insertAscending s.ascending⟩

def ofList (l : List StateId) : StateSet := l.foldr (fun q s => s.insert q) ∅

def singleton (q : StateId) : StateSet := ⟨[q], by simp⟩

def size (s : StateSet) : Nat := s.toList.length

def isEmpty (s : StateSet) : Bool := s.toList.isEmpty

/-- The set that the flags select by merging two sets. -/
def merge (first both second : Bool) (s t : StateSet) : StateSet :=
  ⟨mergeAscending first both second s.toList t.toList,
    pairwise_mergeAscending s.ascending t.ascending⟩

def union (s t : StateSet) : StateSet := merge true true true s t

def filter (p : StateId → Bool) (s : StateSet) : StateSet :=
  ⟨s.toList.filter p, s.ascending.filter p⟩

def inter (s t : StateSet) : StateSet := merge false true false s t

def diff (s t : StateSet) : StateSet := merge true false false s t

instance : Union StateSet := ⟨union⟩
instance : Inter StateSet := ⟨inter⟩
instance : SDiff StateSet := ⟨diff⟩

def intersects (s t : StateSet) : Bool := !(s ∩ t).isEmpty

def least? (s : StateSet) : Option StateId := s.toList.head?

def ofOption : Option StateId → StateSet
  | none => ∅
  | some q => singleton q

def render (s : StateSet) : String :=
  "\x7b" ++ ", ".intercalate (s.toList.map toString) ++ "\x7d"

@[simp] theorem not_mem_empty : q ∉ (∅ : StateSet) := List.not_mem_nil
@[simp] theorem mem_singleton : r ∈ singleton q ↔ r = q := List.mem_singleton
@[simp] theorem mem_insert : r ∈ s.insert q ↔ r = q ∨ r ∈ s := mem_insertAscending

@[simp] theorem mem_ofList {l : List StateId} : q ∈ ofList l ↔ q ∈ l := by
  unfold ofList
  induction l with
  | nil => simp
  | cons p l ih => simp [ih]

theorem mem_foldl_insert {l : List StateId} : q ∈ l.foldl insert s ↔ q ∈ s ∨ q ∈ l := by
  induction l generalizing s with
  | nil => simp
  | cons r l ih =>
    simp only [List.foldl_cons, ih, mem_insert, List.mem_cons, or_assoc, or_left_comm]

@[simp] theorem mem_filter {p : StateId → Bool} : q ∈ s.filter p ↔ q ∈ s ∧ p q :=
  List.mem_filter

theorem mem_merge : q ∈ merge first both second s t ↔
    q ∈ s ∧ q ∉ t ∧ first ∨ q ∈ s ∧ q ∈ t ∧ both ∨ q ∉ s ∧ q ∈ t ∧ second :=
  mem_mergeAscending s.ascending t.ascending

@[simp] theorem mem_union : q ∈ s ∪ t ↔ q ∈ s ∨ q ∈ t := by
  refine mem_merge.trans ?_
  grind

@[simp] theorem mem_inter : q ∈ s ∩ t ↔ q ∈ s ∧ q ∈ t := by
  refine mem_merge.trans ?_
  simp

@[simp] theorem mem_sdiff : q ∈ s \ t ↔ q ∈ s ∧ q ∉ t := by
  refine mem_merge.trans ?_
  simp

theorem isEmpty_iff : s.isEmpty ↔ ∀ q, q ∉ s := by
  rw [isEmpty, List.isEmpty_iff, List.eq_nil_iff_forall_not_mem]
  rfl

theorem intersects_iff : s.intersects t ↔ ∃ q, q ∈ s ∧ q ∈ t := by
  rw [intersects, Bool.not_eq_true', ← Bool.not_eq_true, isEmpty_iff]
  simp

@[simp] theorem mem_ofOption {o : Option StateId} : q ∈ ofOption o ↔ o = some q := by
  cases o with
  | none => simp [ofOption]
  | some r => simp [ofOption, eq_comm]

theorem mem_of_least? (h : s.least? = some q) : q ∈ s := List.mem_of_head? h

theorem least?_eq_none_iff : s.least? = none ↔ s.isEmpty := by
  rw [least?, List.head?_eq_none_iff, isEmpty, List.isEmpty_iff]

theorem toList_injective : ∀ {l l' : List StateId}, l.Pairwise (· < ·) → l'.Pairwise (· < ·) →
    (∀ q, q ∈ l ↔ q ∈ l') → l = l'
  | [], [], _, _, _ => rfl
  | [], q :: l', _, _, h => absurd ((h q).2 List.mem_cons_self) List.not_mem_nil
  | q :: l, [], _, _, h => absurd ((h q).1 List.mem_cons_self) List.not_mem_nil
  | q :: l, r :: l', hl, hl', h => by
    have ⟨hq, hlt⟩ := List.pairwise_cons.1 hl
    have ⟨hr, hlt'⟩ := List.pairwise_cons.1 hl'
    have hqr : q = r := by
      rcases List.mem_cons.1 ((h q).1 List.mem_cons_self) with e | h₁
      · exact e
      · rcases List.mem_cons.1 ((h r).2 List.mem_cons_self) with e | h₂
        · exact e.symm
        · exact absurd (hq r h₂) (Nat.lt_asymm (hr q h₁))
    subst hqr
    congr 1
    refine toList_injective hlt hlt' fun p => ⟨fun hp => ?_, fun hp => ?_⟩
    · rcases List.mem_cons.1 ((h p).1 (List.mem_cons_of_mem _ hp)) with rfl | h'
      · exact absurd (hq p hp) (Nat.lt_irrefl p)
      · exact h'
    · rcases List.mem_cons.1 ((h p).2 (List.mem_cons_of_mem _ hp)) with rfl | h'
      · exact absurd (hr p hp) (Nat.lt_irrefl p)
      · exact h'

@[ext] theorem ext (h : ∀ q, q ∈ s ↔ q ∈ t) : s = t := by
  obtain ⟨l, hl⟩ := s
  obtain ⟨l', hl'⟩ := t
  cases toList_injective hl hl' h
  rfl

theorem ofList_toList (s : StateSet) : ofList s.toList = s := ext fun _ => mem_ofList

theorem foldl_insert_toList (s : StateSet) : s.toList.foldl insert ∅ = s :=
  ext fun _ => mem_foldl_insert.trans (or_iff_right not_mem_empty)

theorem isEmpty_iff_eq : s.isEmpty ↔ s = ∅ := by
  rw [isEmpty_iff, StateSet.ext_iff]
  simp

theorem eq_ofOption_least? (h : s.size ≤ 1) : s = ofOption s.least? := by
  obtain ⟨l, hl⟩ := s
  match l, hl, h with
  | [], _, _ => rfl
  | [q], _, _ => rfl

@[simp] theorem least?_ofOption (o : Option StateId) : (ofOption o).least? = o := by
  cases o <;> rfl

theorem size_ofOption_le (o : Option StateId) : (ofOption o).size ≤ 1 := by
  cases o with
  | none => exact Nat.zero_le 1
  | some q => exact Nat.le_refl 1

end StateSet
end Chomsky
