import Chomsky.Data.Distinct
import Chomsky.Data.OrderedMap

/-! # Maps from the parts of their values

A map may be put together from pairs of a key and one part of its value. The keys stand in the
order in which they come first (`keys_foldl_upsert`), and each value consists of the parts that are
listed under its key (`get?_foldl_upsert`). So a map comes back from the parts of its values
(`foldl_upsert_parts`).
-/

namespace Chomsky

section Lists

variable {κ : Type u} {κ' : Type u'} {β : Type w} {β' : Type w'} [DecidableEq κ] [DecidableEq κ']
  {k : κ} {b : β} {seen : List κ} {l : List (κ × β)} {groups : List (κ × List β)}

/-- The parts that are listed under a key. -/
def partsOf (k : κ) (l : List (κ × β)) : List β :=
  (l.filter fun pair => pair.1 = k).map Prod.snd

theorem mem_partsOf : b ∈ partsOf k l ↔ (k, b) ∈ l := by
  simp only [partsOf, List.mem_map, List.mem_filter, decide_eq_true_eq, Prod.exists]
  constructor
  · rintro ⟨_, _, ⟨hmem, rfl⟩, rfl⟩
    exact hmem
  · exact fun hmem => ⟨k, b, ⟨hmem, rfl⟩, rfl⟩

theorem partsOf_cons (pair : κ × β) : partsOf k (pair :: l) =
    if pair.1 = k then pair.2 :: partsOf k l else partsOf k l := by
  by_cases h : pair.1 = k
  · simp [partsOf, h]
  · simp [partsOf, h]

theorem partsOf_append (l l' : List (κ × β)) :
    partsOf k (l ++ l') = partsOf k l ++ partsOf k l' := by
  rw [partsOf, List.filter_append, List.map_append]
  rfl

theorem partsOf_eq_nil (h : k ∉ l.map Prod.fst) : partsOf k l = [] :=
  List.eq_nil_iff_forall_not_mem.2 fun _ hb => h (List.mem_map_of_mem (mem_partsOf.1 hb))

theorem partsOf_eq_singleton (hkeys : (l.map Prod.fst).Nodup) (h : (k, b) ∈ l) :
    partsOf k l = [b] := by
  induction l with
  | nil => cases h
  | cons pair l ih =>
    obtain ⟨hnot, hkeys⟩ := List.nodup_cons.1 hkeys
    rw [partsOf_cons]
    rcases List.mem_cons.1 h with rfl | h
    · rw [if_pos rfl, partsOf_eq_nil hnot]
    · have hne : pair.1 ≠ k := by
        rintro rfl
        exact hnot (List.mem_map.2 ⟨_, h, rfl⟩)
      rw [if_neg hne, ih hkeys h]

theorem partsOf_map {f : κ → κ'} {g : β → β'} (hf : ∀ pair ∈ l, f pair.1 = f k → pair.1 = k) :
    partsOf (f k) (l.map fun (k, b) => (f k, g b)) = (partsOf k l).map g := by
  induction l with
  | nil => rfl
  | cons pair l ih =>
    obtain ⟨hpair, hf⟩ := List.forall_mem_cons.1 hf
    have hiff : f pair.1 = f k ↔ pair.1 = k := ⟨hpair, congrArg f⟩
    rw [List.map_cons, partsOf_cons, partsOf_cons, ih hf, apply_ite (List.map g)]
    simp only [hiff, List.map_cons]

theorem partsOf_flatMap : partsOf k (groups.flatMap fun (k, bs) => bs.map fun b => (k, b)) =
    (partsOf k groups).flatten := by
  induction groups with
  | nil => rfl
  | cons group groups ih =>
    obtain ⟨k', bs⟩ := group
    have hgroup : partsOf k (bs.map fun b => (k', b)) = if k' = k then bs else [] := by
      by_cases h : k' = k
      · subst h
        simp [partsOf, Function.comp_def, List.filter_eq_self.2]
      · simp [partsOf, h]
    rw [List.flatMap_cons, partsOf_append, ih, hgroup, partsOf_cons]
    split <;> rfl

theorem unseen_append_of_subset {keys keys' : List κ} (h : ∀ k ∈ keys, k ∈ seen) :
    unseen seen (keys ++ keys') = unseen seen keys' := by
  rw [unseen, List.filter_append, List.filter_eq_nil_iff.2, List.nil_append, unseen]
  exact fun k hk => by simpa using h k hk

theorem unseen_map_fst_flatMap (h : ∀ group ∈ groups, group.2 ≠ []) :
    unseen seen ((groups.flatMap fun (k, bs) => bs.map fun b => (k, b)).map Prod.fst) =
      unseen seen (groups.map Prod.fst) := by
  induction groups generalizing seen with
  | nil => rfl
  | cons group groups ih =>
    obtain ⟨k, bs⟩ := group
    obtain ⟨hne, hrest⟩ := List.forall_mem_cons.1 h
    obtain ⟨b, bs, rfl⟩ : ∃ b rest, bs = b :: rest := List.exists_cons_of_ne_nil hne
    have hsame : ∀ k' ∈ (bs.map fun b => (k, b)).map Prod.fst, k' = k := by
      rintro _ hk
      obtain ⟨_, hpair, rfl⟩ := List.mem_map.1 hk
      obtain ⟨_, -, rfl⟩ := List.mem_map.1 hpair
      rfl
    rw [List.flatMap_cons, List.map_append]
    dsimp only
    rw [List.map_cons, List.map_cons, List.map_cons, List.cons_append]
    by_cases hk : k ∈ seen
    · rw [unseen_cons_of_mem hk, unseen_cons_of_mem hk,
        unseen_append_of_subset fun k' hk' => hsame k' hk' ▸ hk, ih hrest]
    · have hk' : k ∈ seen ++ [k] := List.mem_append_right _ (List.mem_singleton.2 rfl)
      rw [unseen_cons_of_not_mem hk, unseen_cons_of_not_mem hk,
        unseen_append_of_subset fun k'' hk'' => hsame k'' hk'' ▸ hk', ih hrest]

end Lists

namespace OrderedMap

variable {κ : Type u} {ν : Type v} {β : Type w} {k : κ}

theorem foldl_some {f : ν → β → ν} {e : ν} {bs : List β} (hbs : bs ≠ []) :
    bs.foldl (fun o b => some (f (o.getD e) b)) none = some (bs.foldl f e) := by
  cases bs with
  | nil => exact absurd rfl hbs
  | cons b bs =>
    rw [List.foldl_cons, List.foldl_cons]
    exact List.foldl_hom some fun _ _ => rfl

variable [Ord κ] [Std.TransOrd κ] {m n : OrderedMap κ ν}

theorem map_some_entries (m : OrderedMap κ ν) :
    m.entries.map some = m.keys.map fun k => (m.get? k).map fun v => (k, v) := by
  rw [keys, List.map_map]
  refine List.map_congr_left fun entry hentry => ?_
  rw [Function.comp_apply, get?_eq_some_iff.2 hentry, Option.map_some]

variable [Std.LawfulEqOrd κ]

theorem ext_get? (hkeys : m.keys = n.keys) (hget : ∀ k, m.get? k = n.get? k) : m = n := by
  have hentries : m.entries.map some = n.entries.map some := by
    simp only [map_some_entries, hkeys, hget]
  exact ext ((List.map_inj_right fun _ _ => Option.some.inj).1 hentries)

variable [DecidableEq κ]

theorem keys_foldl_upsert (add : β → Option ν → ν) (m : OrderedMap κ ν) (l : List (κ × β)) :
    (l.foldl (fun m (k, b) => m.upsert k (add b)) m).keys =
      m.keys ++ unseen m.keys (l.map Prod.fst) := by
  induction l generalizing m with
  | nil => rw [List.foldl_nil, List.map_nil, unseen_nil, List.append_nil]
  | cons pair l ih =>
    rw [List.foldl_cons, ih, keys_upsert, List.map_cons]
    by_cases hk : pair.1 ∈ m.keys
    · rw [if_pos hk, unseen_cons_of_mem hk]
    · rw [if_neg hk, unseen_cons_of_not_mem hk, List.append_assoc, List.singleton_append]

theorem get?_foldl_upsert (add : β → Option ν → ν) (m : OrderedMap κ ν) (l : List (κ × β)) :
    (l.foldl (fun m (k, b) => m.upsert k (add b)) m).get? k =
      (partsOf k l).foldl (fun o b => some (add b o)) (m.get? k) := by
  induction l generalizing m with
  | nil => rfl
  | cons pair l ih =>
    rw [List.foldl_cons, ih, get?_upsert, partsOf_cons]
    by_cases hk : pair.1 = k
    · rw [if_pos hk.symm, if_pos hk, List.foldl_cons, hk]
    · rw [if_neg (Ne.symm hk), if_neg hk]

/-- A map comes back from the parts of its values, if every value has some. -/
theorem foldl_upsert_parts (m : OrderedMap κ ν) {parts : ν → List β} {f : ν → β → ν} {e : ν}
    (h : ∀ k v, m.get? k = some v → parts v ≠ [] ∧ (parts v).foldl f e = v) :
    ((m.entries.map fun (k, v) => (k, parts v)).flatMap fun (k, bs) => bs.map fun b => (k, b)).foldl
      (fun m (k, b) => m.upsert k fun o => f (o.getD e) b) ∅ = m := by
  have hkeys : (m.entries.map fun (k, v) => (k, parts v)).map Prod.fst = m.keys := List.map_map
  have hne : ∀ group ∈ m.entries.map fun (k, v) => (k, parts v), group.2 ≠ [] := by
    intro group hgroup
    obtain ⟨⟨k, v⟩, hentry, rfl⟩ := List.mem_map.1 hgroup
    exact (h k v (get?_eq_some_iff.2 hentry)).1
  refine ext_get? ?_ fun k => ?_
  · rw [keys_foldl_upsert fun b o => f (o.getD e) b, unseen_map_fst_flatMap hne, hkeys]
    exact unseen_of_nodup m.nodup_keys
  · rw [get?_foldl_upsert fun b o => f (o.getD e) b, partsOf_flatMap]
    cases hget : m.get? k with
    | none =>
      have hk : k ∉ m.keys := fun hk => by
        obtain ⟨v, hv⟩ := mem_keys_iff.1 hk
        cases hget.symm.trans hv
      rw [partsOf_eq_nil (hkeys ▸ hk)]
      rfl
    | some v =>
      obtain ⟨hparts, hv⟩ := h k v hget
      have hentry : (k, parts v) ∈ m.entries.map fun (k, v) => (k, parts v) :=
        List.mem_map.2 ⟨(k, v), get?_eq_some_iff.1 hget, rfl⟩
      rw [partsOf_eq_singleton (hkeys ▸ m.nodup_keys) hentry, List.flatten_singleton]
      exact (foldl_some hparts).trans (congrArg some hv)

end OrderedMap

end Chomsky
