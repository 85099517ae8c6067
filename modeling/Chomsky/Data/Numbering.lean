import Std.Data.ExtTreeMap

/-! # Numberings

Elements in the order of arrival, no two of which have the same label. A search tree finds
the number of a label, but says no more than the elements do: numberings with the same
elements are equal (`Numbering.ext`).
-/

namespace Chomsky
variable {α : Type u} {κ : Type v}

instance ordProd [Ord α] [Ord κ] : Ord (α × κ) := lexOrd

variable [Ord κ] [Std.TransOrd κ]

/-- Elements in the order of arrival, and the number of every label in use. -/
structure Numbering (label : α → κ) where
  elements : Array α
  places : Std.ExtTreeMap κ Nat
  places_iff : ∀ k i, places[k]? = some i ↔ elements[i]?.map label = some k

namespace Numbering
variable {label : α → κ} {d : Numbering label} {a b : α} {i : Nat} {k : κ} {l : List α}

def toList (d : Numbering label) : List α := d.elements.toList

def labels (d : Numbering label) : List κ := d.toList.map label

def size (d : Numbering label) : Nat := d.elements.size

def get? (d : Numbering label) (i : Nat) : Option α := d.elements[i]?

def place? (d : Numbering label) (k : κ) : Option Nat := d.places[k]?

def owner? (d : Numbering label) (k : κ) : Option α := (d.place? k).bind d.get?

def hasLabel (d : Numbering label) (k : κ) : Bool := (d.place? k).isSome

def idxOf? [DecidableEq α] (d : Numbering label) (a : α) : Option Nat :=
  (d.place? (label a)).filter fun i => d.get? i = some a

theorem getElem?_toList : d.toList[i]? = d.get? i := Array.getElem?_toList

theorem length_toList : d.toList.length = d.size := Array.length_toList

theorem place?_eq_some_iff : d.place? k = some i ↔ d.labels[i]? = some k := by
  rw [place?, d.places_iff, labels, List.getElem?_map, getElem?_toList, get?]

theorem owner?_eq_some_iff : d.owner? k = some a ↔ a ∈ d.toList ∧ label a = k := by
  simp only [owner?, Option.bind_eq_some_iff, List.mem_iff_getElem?, getElem?_toList,
    place?_eq_some_iff, labels, List.getElem?_map, Option.map_eq_some_iff]
  constructor
  · rintro ⟨i, ⟨b, hb, rfl⟩, ha⟩
    rw [hb] at ha
    cases ha
    exact ⟨⟨i, hb⟩, rfl⟩
  · rintro ⟨⟨i, ha⟩, rfl⟩
    exact ⟨i, ⟨a, ha, rfl⟩, ha⟩

theorem hasLabel_iff : d.hasLabel k ↔ k ∈ d.labels := by
  rw [hasLabel, Option.isSome_iff_exists, List.mem_iff_getElem?]
  simp only [place?_eq_some_iff]

theorem owner?_eq_none_iff : d.owner? k = none ↔ d.hasLabel k = false := by
  rw [← Bool.not_eq_true, hasLabel_iff, Option.eq_none_iff_forall_ne_some, labels, List.mem_map]
  simp only [ne_eq, owner?_eq_some_iff, not_exists]

theorem idxOf?_eq_some_iff [DecidableEq α] : d.idxOf? a = some i ↔ d.toList[i]? = some a := by
  rw [idxOf?, Option.filter_eq_some_iff, place?_eq_some_iff, getElem?_toList, labels,
    List.getElem?_map, getElem?_toList]
  simp only [decide_eq_true_eq, and_iff_right_iff_imp]
  exact fun h => by simp [h]

theorem nodup_labels (d : Numbering label) : d.labels.Nodup := by
  refine List.pairwise_iff_getElem.2 fun i j hi hj hij e => ?_
  have hi := place?_eq_some_iff.2 (List.getElem?_eq_getElem hi)
  have hj := place?_eq_some_iff.2 (List.getElem?_eq_getElem hj)
  rw [e, hj] at hi
  cases hi
  exact Nat.lt_irrefl i hij

theorem nodup_toList (d : Numbering label) : d.toList.Nodup :=
  List.Pairwise.of_map label (fun _ _ h e => h (e ▸ rfl)) d.nodup_labels

def empty : Numbering label := ⟨#[], ∅, by simp⟩

instance : EmptyCollection (Numbering label) := ⟨empty⟩

@[simp] theorem toList_empty : (∅ : Numbering label).toList = [] := rfl

@[simp] theorem hasLabel_empty : (∅ : Numbering label).hasLabel k = false :=
  Bool.eq_false_iff.2 fun h => absurd (hasLabel_iff.1 h) List.not_mem_nil

/-- Change the element with a given number, but not its label. -/
def modify (d : Numbering label) (i : Nat) (f : α → α) (h : ∀ a, label (f a) = label a) :
    Numbering label where
  elements := d.elements.modify i f
  places := d.places
  places_iff k j := by
    rw [d.places_iff, Array.getElem?_modify]
    split <;> simp [Function.comp_def, h]

theorem toList_modify (d : Numbering label) {f : α → α} (h : ∀ a, label (f a) = label a) :
    (d.modify i f h).toList = d.toList.modify i f := Array.toList_modify

def map {label' : β → κ} (d : Numbering label) (f : α → β) (h : ∀ a, label' (f a) = label a) :
    Numbering label' where
  elements := d.elements.map f
  places := d.places
  places_iff k i := by
    rw [d.places_iff, Array.getElem?_map, Option.map_map]
    simp [Function.comp_def, h]

theorem toList_map {label' : β → κ} (d : Numbering label) {f : α → β}
    (h : ∀ a, label' (f a) = label a) : (d.map f h).toList = d.toList.map f := Array.toList_map

variable [Std.LawfulEqOrd κ]

/-- The search tree is determined by the elements. -/
@[ext] theorem ext {d d' : Numbering label} (h : d.toList = d'.toList) : d = d' := by
  obtain ⟨elements, places, hp⟩ := d
  obtain ⟨elements', places', hp'⟩ := d'
  cases Array.toList_inj.1 (show elements.toList = elements'.toList from h)
  congr
  refine Std.ExtTreeMap.ext_getElem? fun k => Option.ext fun i => ?_
  rw [hp, hp']

instance [DecidableEq α] : DecidableEq (Numbering label) := fun d d' =>
  decidable_of_iff (d.elements = d'.elements)
    ⟨fun h => ext (congrArg Array.toList h), fun h => h ▸ rfl⟩

theorem places_iff_push (h : d.places[label a]? = none) (k : κ) (i : Nat) :
    (d.places.insert (label a) d.elements.size)[k]? = some i ↔
      (d.elements.push a)[i]?.map label = some k := by
  rw [Std.ExtTreeMap.getElem?_insert, Array.getElem?_push]
  by_cases hk : label a = k
  · subst hk
    rw [if_pos (Std.compare_eq_iff_eq.2 rfl)]
    by_cases hi : i = d.elements.size
    · simp [hi]
    · rw [if_neg hi, ← d.places_iff, h]
      simpa using fun e => absurd e.symm hi
  · rw [if_neg (mt Std.compare_eq_iff_eq.1 hk), d.places_iff]
    by_cases hi : i = d.elements.size
    · simp [hi, hk]
    · rw [if_neg hi]

def push (d : Numbering label) (a : α) (h : d.places[label a]? = none) : Numbering label :=
  let place := d.elements.size
  ⟨d.elements.push a, d.places.insert (label a) place, places_iff_push h⟩

def insert (d : Numbering label) (a : α) : Numbering label :=
  match h : d.places[label a]? with
  | some _ => d
  | none => d.push a h

def insertAll (d : Numbering label) (as : List α) : Numbering label := as.foldl insert d

def ofList (label : α → κ) (as : List α) : Numbering label := insertAll ∅ as

def filter (d : Numbering label) (p : α → Bool) : Numbering label :=
  ofList label (d.toList.filter p)

/-- Add an element at the end. If it is there already, nothing changes; if another element has
its label, the two of them are the outcome `error`. -/
def insert? [DecidableEq α] (d : Numbering label) (a : α) :
    Except (α × α) (Numbering label) :=
  match d.owner? (label a) with
  | none => .ok (d.insert a)
  | some b => if b = a then .ok d else .error (b, a)

def insertAll? [DecidableEq α] (d : Numbering label) :
    List α → Except (α × α) (Numbering label)
  | [] => .ok d
  | a :: as =>
    match d.insert? a with
    | .ok d => insertAll? d as
    | .error clash => .error clash

theorem toList_insert (d : Numbering label) (a : α) :
    (d.insert a).toList = if d.hasLabel (label a) then d.toList else d.toList ++ [a] := by
  unfold insert
  split
  · next h => simp [hasLabel, place?, h]
  · next h =>
    simp only [hasLabel, place?, h, Option.isSome_none, Bool.false_eq_true, if_false]
    exact Array.toList_push

theorem toList_insertAll_of_nodup {as : List α} (h : (d.labels ++ as.map label).Nodup) :
    (d.insertAll as).toList = d.toList ++ as := by
  induction as generalizing d with
  | nil => simp [insertAll]
  | cons a as ih =>
    have ha : ¬d.hasLabel (label a) := fun ha =>
      (List.nodup_append.1 h).2.2 _ (hasLabel_iff.1 ha) _ List.mem_cons_self rfl
    have hins := toList_insert d a
    rw [if_neg ha] at hins
    rw [show d.insertAll (a :: as) = (d.insert a).insertAll as from rfl, ih, hins,
      List.append_assoc, List.singleton_append]
    simpa [labels, hins] using h

theorem toList_ofList_of_nodup (h : (l.map label).Nodup) : (ofList label l).toList = l :=
  toList_insertAll_of_nodup (d := (∅ : Numbering label)) h

@[simp] theorem toList_ofList_singleton : (ofList label [a]).toList = [a] :=
  toList_ofList_of_nodup (by simp)

theorem toList_filter (d : Numbering label) (p : α → Bool) :
    (d.filter p).toList = d.toList.filter p :=
  toList_ofList_of_nodup (d.nodup_labels.sublist (List.filter_sublist.map label))

variable [DecidableEq α]

theorem insert?_of_mem (h : a ∈ d.toList) : d.insert? a = .ok d := by
  simp [insert?, owner?_eq_some_iff.2 ⟨h, rfl⟩]

theorem insert?_of_not_hasLabel (h : d.hasLabel (label a) = false) :
    d.insert? a = .ok (d.insert a) := by
  simp [insert?, owner?_eq_none_iff.2 h]

theorem insert?_eq_error_iff {b c : α} :
    d.insert? a = .error (b, c) ↔ c = a ∧ b ∈ d.toList ∧ label b = label a ∧ b ≠ a := by
  unfold insert?
  split
  · next h =>
    refine ⟨nofun, fun ⟨_, hb, hl, _⟩ => ?_⟩
    rw [owner?_eq_some_iff.2 ⟨hb, hl⟩] at h
    cases h
  · next b' h =>
    have ⟨hb', hl'⟩ := owner?_eq_some_iff.1 h
    split
    · next e =>
      refine ⟨nofun, fun ⟨_, hb, hl, hne⟩ => ?_⟩
      rw [owner?_eq_some_iff.2 ⟨hb, hl⟩] at h
      exact absurd ((Option.some.inj h).trans e) hne
    · next hne =>
      simp only [Except.error.injEq, Prod.mk.injEq]
      refine ⟨fun ⟨e, e'⟩ => ⟨e'.symm, e ▸ hb', e ▸ hl', e ▸ hne⟩, fun ⟨e, hb, hl, _⟩ => ?_⟩
      rw [owner?_eq_some_iff.2 ⟨hb, hl⟩] at h
      exact ⟨(Option.some.inj h).symm, e.symm⟩

end Numbering
end Chomsky
