import Chomsky.Data.Numbering

/-! # Ordered maps

Finite maps that keep the order in which their keys first appeared. A key keeps its place
when its value changes (`entries_upsert`).
-/

namespace Chomsky

/-- A finite map whose entries are numbered in the order in which the keys were added. -/
structure OrderedMap (κ : Type u) (ν : Type v) [Ord κ] [Std.TransOrd κ] where
  pairs : Numbering (Prod.fst : κ × ν → κ)

namespace OrderedMap
variable {κ : Type u} {ν : Type v} [Ord κ] [Std.TransOrd κ]
variable {m : OrderedMap κ ν} {k k' : κ} {v : ν}

def entries (m : OrderedMap κ ν) : List (κ × ν) := m.pairs.toList

def empty : OrderedMap κ ν := ⟨∅⟩

instance : EmptyCollection (OrderedMap κ ν) := ⟨empty⟩
instance : Inhabited (OrderedMap κ ν) := ⟨empty⟩

@[simp] theorem entries_empty : (∅ : OrderedMap κ ν).entries = [] := rfl

def size (m : OrderedMap κ ν) : Nat := m.pairs.size

def keys (m : OrderedMap κ ν) : List κ := m.entries.map Prod.fst

def values (m : OrderedMap κ ν) : List ν := m.entries.map Prod.snd

def entryAt? (m : OrderedMap κ ν) (i : Nat) : Option (κ × ν) := m.pairs.get? i

def place? (m : OrderedMap κ ν) (k : κ) : Option Nat := m.pairs.place? k

def get? (m : OrderedMap κ ν) (k : κ) : Option ν := (m.pairs.owner? k).map Prod.snd

def contains (m : OrderedMap κ ν) (k : κ) : Bool := m.pairs.hasLabel k

/-- Equality without regard to the order of the keys. -/
def sameEntries [DecidableEq ν] (m n : OrderedMap κ ν) : Bool :=
  m.size == n.size && m.entries.all fun (k, v) => n.get? k == some v

def mapValues (f : κ → ν → ν') (m : OrderedMap κ ν) : OrderedMap κ ν' :=
  ⟨m.pairs.map (fun (k, v) => (k, f k v)) fun _ => rfl⟩

@[simp] theorem length_entries : m.entries.length = m.size := m.pairs.length_toList

theorem getElem?_entries {i : Nat} : m.entries[i]? = m.entryAt? i := m.pairs.getElem?_toList

theorem nodup_keys (m : OrderedMap κ ν) : m.keys.Nodup := m.pairs.nodup_labels

theorem place?_eq_some_iff {i : Nat} : m.place? k = some i ↔ m.keys[i]? = some k :=
  m.pairs.place?_eq_some_iff

theorem contains_iff : m.contains k ↔ k ∈ m.keys := m.pairs.hasLabel_iff

theorem get?_eq_some_iff : m.get? k = some v ↔ (k, v) ∈ m.entries := by
  simp only [get?, Option.map_eq_some_iff, Numbering.owner?_eq_some_iff]
  constructor
  · rintro ⟨_, ⟨h, rfl⟩, rfl⟩
    exact h
  · exact fun h => ⟨(k, v), ⟨h, rfl⟩, rfl⟩

@[simp] theorem get?_empty : (∅ : OrderedMap κ ν).get? k = none := rfl

theorem mem_keys_iff : k ∈ m.keys ↔ ∃ v, m.get? k = some v := by
  simp only [keys, get?_eq_some_iff, List.mem_map, Prod.exists, exists_and_right, exists_eq_right]

theorem mem_values_iff : v ∈ m.values ↔ ∃ k, m.get? k = some v := by
  simp only [values, get?_eq_some_iff, List.mem_map, Prod.exists, exists_eq_right]

theorem entries_mapValues {f : κ → ν → ν'} :
    (m.mapValues f).entries = m.entries.map fun (k, v) => (k, f k v) :=
  Array.toList_map

@[simp] theorem keys_mapValues {f : κ → ν → ν'} : (m.mapValues f).keys = m.keys := by
  simp [keys, entries_mapValues, Function.comp_def]

theorem get?_mapValues {f : κ → ν → ν'} : (m.mapValues f).get? k = (m.get? k).map (f k) := by
  refine Option.ext fun v => ?_
  rw [get?_eq_some_iff, entries_mapValues, Option.map_eq_some_iff]
  simp only [get?_eq_some_iff, List.mem_map, Prod.mk.injEq, Prod.exists]
  constructor
  · rintro ⟨k, v, h, rfl, rfl⟩
    exact ⟨v, h, rfl⟩
  · rintro ⟨v, h, rfl⟩
    exact ⟨k, v, h, rfl, rfl⟩

variable [Std.LawfulEqOrd κ]

@[ext] theorem ext {m n : OrderedMap κ ν} (h : m.entries = n.entries) : m = n := by
  cases m; cases n; congr; exact Numbering.ext h

instance [DecidableEq κ] [DecidableEq ν] : DecidableEq (OrderedMap κ ν) := fun m n =>
  decidable_of_iff (m.pairs = n.pairs) ⟨fun h => by cases m; congr, fun h => h ▸ rfl⟩

@[simp] theorem mapValues_empty {f : κ → ν → ν'} : (∅ : OrderedMap κ ν).mapValues f = ∅ :=
  ext entries_mapValues

def filter (p : κ → ν → Bool) (m : OrderedMap κ ν) : OrderedMap κ ν :=
  ⟨m.pairs.filter fun (k, v) => p k v⟩

theorem entries_filter {p : κ → ν → Bool} :
    (m.filter p).entries = m.entries.filter fun (k, v) => p k v := Numbering.toList_filter _ _

theorem get?_filter_eq_some_iff {p : κ → ν → Bool} :
    (m.filter p).get? k = some v ↔ m.get? k = some v ∧ p k v := by
  rw [get?_eq_some_iff, get?_eq_some_iff, entries_filter, List.mem_filter]

theorem mapValues_eq_self {f : κ → ν → ν} (h : ∀ k v, m.get? k = some v → f k v = v) :
    m.mapValues f = m := by
  refine ext (entries_mapValues.trans ?_)
  refine (List.map_congr_left fun entry hentry => ?_).trans (List.map_id m.entries)
  exact Prod.ext rfl (h _ _ (get?_eq_some_iff.2 hentry))

theorem filter_eq_self {p : κ → ν → Bool} (h : ∀ k v, m.get? k = some v → p k v) :
    m.filter p = m := by
  refine ext (entries_filter.trans (List.filter_eq_self.2 fun entry hentry => ?_))
  exact h _ _ (get?_eq_some_iff.2 hentry)

/-- Set the value at a key from the value that is there. -/
def upsert (m : OrderedMap κ ν) (k : κ) (f : Option ν → ν) : OrderedMap κ ν :=
  match m.pairs.place? k with
  | some i => ⟨m.pairs.modify i (fun (k, v) => (k, f (some v))) fun _ => rfl⟩
  | none => ⟨m.pairs.insert (k, f none)⟩

def insert (m : OrderedMap κ ν) (k : κ) (v : ν) : OrderedMap κ ν := m.upsert k fun _ => v

def ofList (l : List (κ × ν)) : OrderedMap κ ν := l.foldl (fun m (k, v) => m.insert k v) ∅

/-- A table with numbered rows and columns, read row by row. Places without a value are left
out. -/
def ofRows (rows : List α) (columns : Nat) (f : α → Nat → Option ν) : OrderedMap (Nat × Nat) ν :=
  ⟨.ofList _ <| rows.zipIdx.flatMap fun (a, k) => (List.range columns).filterMap fun i =>
    (f a i).map fun v => ((k, i), v)⟩

theorem nodup_rows {rows : List α} {columns : Nat} {f : α → Nat → Option ν} :
    ((rows.zipIdx.flatMap fun (a, k) => (List.range columns).filterMap fun i =>
      (f a i).map fun v => ((k, i), v)).map Prod.fst).Nodup := by
  have hmem : ∀ {a : α} {k : Nat} {key : Nat × Nat},
      key ∈ ((List.range columns).filterMap fun i => (f a i).map fun v => ((k, i), v)).map
        Prod.fst → key.1 = k := by
    simp only [List.mem_map, List.mem_filterMap, Option.map_eq_some_iff]
    rintro a k key ⟨e, ⟨i, -, v, -, rfl⟩, rfl⟩
    rfl
  rw [List.map_flatMap, List.Nodup, List.pairwise_flatMap]
  refine ⟨fun ⟨a, k⟩ _ => ?_, ?_⟩
  · rw [List.pairwise_map]
    refine List.Pairwise.filterMap _ (fun i j hij x hx y hy e => hij ?_) List.nodup_range
    obtain ⟨v, -, rfl⟩ := Option.map_eq_some_iff.1 hx
    obtain ⟨w, -, rfl⟩ := Option.map_eq_some_iff.1 hy
    exact (Prod.mk.inj e).2
  · have hidx : rows.zipIdx.Pairwise fun x y => x.2 ≠ y.2 := by
      rw [← List.pairwise_map (f := Prod.snd) (R := (· ≠ ·)), List.zipIdx_map_snd]
      exact List.nodup_range'
    refine hidx.imp fun hne x hx y hy e => hne ?_
    rw [← hmem hx, ← hmem hy, e]

theorem entries_ofRows {rows : List α} {columns : Nat} {f : α → Nat → Option ν} :
    (ofRows rows columns f).entries = rows.zipIdx.flatMap fun (a, k) =>
      (List.range columns).filterMap fun i => (f a i).map fun v => ((k, i), v) :=
  Numbering.toList_ofList_of_nodup nodup_rows

theorem get?_ofRows {rows : List α} {columns : Nat} {f : α → Nat → Option ν} {k i : Nat} :
    (ofRows rows columns f).get? (k, i) = if i < columns then rows[k]?.bind (f · i) else none := by
  refine Option.ext fun v => ?_
  rw [get?_eq_some_iff, entries_ofRows]
  simp only [List.mem_flatMap, List.mem_filterMap, List.mem_range, Option.map_eq_some_iff,
    Prod.exists, Prod.mk.injEq, List.mem_zipIdx_iff_getElem?]
  constructor
  · rintro ⟨a, _, ha, _, hi, _, hv, ⟨rfl, rfl⟩, rfl⟩
    rw [if_pos hi, ha]
    exact hv
  · intro h
    split at h
    · next hi =>
      obtain ⟨a, ha, hv⟩ := Option.bind_eq_some_iff.1 h
      exact ⟨a, k, ha, i, hi, v, hv, ⟨rfl, rfl⟩, rfl⟩
    · cases h

variable [DecidableEq κ]

/-- Change the value at a key in place, or add the key at the end. -/
def upsertEntries (k : κ) (f : Option ν → ν) : List (κ × ν) → List (κ × ν)
  | [] => [(k, f none)]
  | (k', v) :: rest =>
    if k' = k then (k', f (some v)) :: rest else (k', v) :: upsertEntries k f rest

omit [Ord κ] [Std.TransOrd κ] [Std.LawfulEqOrd κ] in
theorem upsertEntries_of_not_mem {f : Option ν → ν} {l : List (κ × ν)}
    (h : k ∉ l.map Prod.fst) : upsertEntries k f l = l ++ [(k, f none)] := by
  induction l with
  | nil => rfl
  | cons e l ih =>
    simp only [List.map_cons, List.mem_cons, not_or] at h
    simp [upsertEntries, Ne.symm h.1, ih h.2]

omit [Ord κ] [Std.TransOrd κ] [Std.LawfulEqOrd κ] in
theorem upsertEntries_of_getElem? {f : Option ν → ν} {l : List (κ × ν)} {i : Nat}
    (hl : (l.map Prod.fst).Nodup) (h : (l.map Prod.fst)[i]? = some k) :
    upsertEntries k f l = l.modify i fun (k, v) => (k, f (some v)) := by
  induction l generalizing i with
  | nil => simp at h
  | cons e l ih =>
    have ⟨he, hl⟩ := List.nodup_cons.1 hl
    cases i with
    | zero =>
      have h : e.1 = k := by simpa using h
      simp [upsertEntries, h]
    | succ i =>
      have h : (l.map Prod.fst)[i]? = some k := by simpa using h
      have hne : e.1 ≠ k := fun e' => he (e' ▸ List.mem_of_getElem? h)
      simp [upsertEntries, hne, ih hl h]

theorem entries_upsert (m : OrderedMap κ ν) (k : κ) (f : Option ν → ν) :
    (m.upsert k f).entries = upsertEntries k f m.entries := by
  unfold upsert
  split
  · next i h =>
    rw [upsertEntries_of_getElem? m.nodup_keys (m.pairs.place?_eq_some_iff.1 h)]
    exact Array.toList_modify
  · next h =>
    have h : m.pairs.hasLabel k = false := by simp [Numbering.hasLabel, h]
    rw [upsertEntries_of_not_mem fun hk => by simp [Numbering.hasLabel_iff.2 hk] at h]
    exact (Numbering.toList_insert _ _).trans (if_neg (by simp [h]))

omit [Ord κ] [Std.TransOrd κ] [Std.LawfulEqOrd κ] in
theorem map_upsertEntries {g : κ → ν → ν'} {f : Option ν → ν} {f' : Option ν' → ν'}
    (h : ∀ o, g k (f o) = f' (o.map (g k))) (l : List (κ × ν)) :
    (upsertEntries k f l).map (fun (k, v) => (k, g k v)) =
      upsertEntries k f' (l.map fun (k, v) => (k, g k v)) := by
  induction l with
  | nil => simp [upsertEntries, h]
  | cons e l ih =>
    obtain ⟨k', v⟩ := e
    by_cases hk : k' = k
    · subst hk
      simp [upsertEntries, h]
    · simp [upsertEntries, hk, ih]

theorem mapValues_upsert {g : κ → ν → ν'} {f : Option ν → ν} {f' : Option ν' → ν'}
    (h : ∀ o, g k (f o) = f' (o.map (g k))) :
    (m.upsert k f).mapValues g = (m.mapValues g).upsert k f' :=
  ext <| by
    rw [entries_mapValues, entries_upsert, entries_upsert, entries_mapValues,
      map_upsertEntries h]

omit [Ord κ] [Std.TransOrd κ] [Std.LawfulEqOrd κ] in
theorem map_fst_upsertEntries (k : κ) (f : Option ν → ν) (l : List (κ × ν)) :
    (upsertEntries k f l).map Prod.fst =
      if k ∈ l.map Prod.fst then l.map Prod.fst else l.map Prod.fst ++ [k] := by
  induction l with
  | nil => rfl
  | cons e l ih =>
    obtain ⟨k', v⟩ := e
    by_cases h : k' = k
    · simp [upsertEntries, h]
    · simp only [upsertEntries, if_neg h, List.map_cons, ih, List.mem_cons]
      by_cases h' : k ∈ l.map Prod.fst
      · simp [h']
      · simp [h', Ne.symm h]

theorem keys_upsert (m : OrderedMap κ ν) (k : κ) (f : Option ν → ν) :
    (m.upsert k f).keys = if k ∈ m.keys then m.keys else m.keys ++ [k] := by
  rw [keys, entries_upsert]
  exact map_fst_upsertEntries k f m.entries

omit [Std.LawfulEqOrd κ] in
theorem get?_eq_lookup : m.get? k = m.entries.lookup k := by
  have hn := m.nodup_keys
  refine Option.ext fun v => get?_eq_some_iff.trans ?_
  rw [keys] at hn
  generalize m.entries = l at hn
  induction l with
  | nil => simp
  | cons e l ih =>
    obtain ⟨k', v'⟩ := e
    rw [List.map_cons, List.nodup_cons] at hn
    by_cases h : k = k'
    · subst h
      simp only [List.lookup_cons, beq_self_eq_true, Option.some.injEq, List.mem_cons,
        Prod.mk.injEq, true_and]
      refine ⟨fun h => h.elim Eq.symm fun h => ?_, fun h => Or.inl h.symm⟩
      exact absurd (List.mem_map_of_mem (f := Prod.fst) h) hn.1
    · have hb : (k == k') = false := by simpa using h
      simp [List.lookup_cons, hb, ih hn.2, h]

omit [Ord κ] [Std.TransOrd κ] [Std.LawfulEqOrd κ] in
theorem lookup_upsertEntries (k k' : κ) (f : Option ν → ν) (l : List (κ × ν)) :
    (upsertEntries k f l).lookup k' = if k' = k then some (f (l.lookup k)) else l.lookup k' := by
  induction l with
  | nil =>
    by_cases h : k' = k
    · simp [upsertEntries, h]
    · have hb : (k' == k) = false := by simpa using h
      simp [upsertEntries, List.lookup_cons, h, hb]
  | cons e l ih =>
    obtain ⟨k₁, v⟩ := e
    by_cases h₁ : k₁ = k
    · subst h₁
      by_cases h : k' = k₁
      · simp [upsertEntries, h]
      · have : (k' == k₁) = false := by simpa using h
        simp [upsertEntries, List.lookup_cons, h, this]
    · by_cases h : k' = k₁
      · subst h
        simp [upsertEntries, h₁]
      · have hb : (k' == k₁) = false := by simpa using h
        have hb' : (k == k₁) = false := by simpa using Ne.symm h₁
        simp [upsertEntries, List.lookup_cons, h₁, hb, hb', ih]

theorem get?_upsert (m : OrderedMap κ ν) (k k' : κ) (f : Option ν → ν) :
    (m.upsert k f).get? k' = if k' = k then some (f (m.get? k)) else m.get? k' := by
  rw [get?_eq_lookup, get?_eq_lookup, get?_eq_lookup, entries_upsert]
  exact lookup_upsertEntries k k' f m.entries

theorem get?_insert (m : OrderedMap κ ν) (k k' : κ) (v : ν) :
    (m.insert k v).get? k' = if k' = k then some v else m.get? k' :=
  get?_upsert m k k' _

theorem entries_ofList {l : List (κ × ν)} (h : (l.map Prod.fst).Nodup) :
    (ofList l).entries = l := by
  suffices hfold : ∀ m : OrderedMap κ ν, ((m.entries ++ l).map Prod.fst).Nodup →
      (l.foldl (fun m (k, v) => m.insert k v) m).entries = m.entries ++ l from hfold ∅ h
  clear h
  induction l with
  | nil => exact fun m _ => (List.append_nil _).symm
  | cons e l ih =>
    intro m hm
    have hnot : e.1 ∉ m.entries.map Prod.fst := fun hmem => by
      rw [List.map_append, List.map_cons] at hm
      exact (List.nodup_append.1 hm).2.2 e.1 hmem e.1 List.mem_cons_self rfl
    have hinsert : (m.insert e.1 e.2).entries = m.entries ++ [e] :=
      (entries_upsert _ _ _).trans (upsertEntries_of_not_mem hnot)
    rw [List.foldl_cons, ih _ (by rwa [hinsert, List.append_assoc]), hinsert, List.append_assoc]
    rfl

end OrderedMap
end Chomsky
