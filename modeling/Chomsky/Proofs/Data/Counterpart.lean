import Chomsky.Data.OrderedMap
import Chomsky.Data.OrderedSet
import Mathlib.Data.List.Nodup
import Mathlib.Data.List.Perm.Subperm

/-! # Counterparts

Two lists of the same names, each in an order of its own. The counterpart of a name has the same
place in the other list (`getElem?_counterpart_iff`), which permutes all names
(`counterpart_bijective`). Sets and maps that agree without regard to order have such lists.
-/

namespace Chomsky

section Counterpart

variable {α : Type u} [DecidableEq α] {l m : List α} {x : α} {i : Nat}

/-- The member of `m` at the place that `x` has in `l`. What is not in `l` stays as it is. -/
def counterpart (l m : List α) (x : α) : α := ((l.idxOf? x).bind fun i => m[i]?).getD x

theorem counterpart_of_not_mem (hx : x ∉ l) : counterpart l m x = x := by
  rw [counterpart, List.idxOf?_eq_none_iff.2 hx]
  rfl

variable (hl : l.Nodup) (h : l.Perm m)
include hl h

theorem counterpart_of_getElem? (hx : l[i]? = some x) : m[i]? = some (counterpart l m x) := by
  obtain ⟨hi, rfl⟩ := List.getElem?_eq_some_iff.1 hx
  have hidx : l.idxOf? l[i] = some i :=
    List.idxOf?_eq_some_iff.2 ⟨hi, rfl, fun j hj heq =>
      Nat.ne_of_lt hj ((List.Nodup.getElem_inj_iff hl).1 heq)⟩
  rw [counterpart, hidx, Option.bind_some, List.getElem?_eq_getElem (h.length_eq ▸ hi),
    Option.getD_some]

theorem getElem?_counterpart_iff : m[i]? = some (counterpart l m x) ↔ l[i]? = some x := by
  refine ⟨fun hi => ?_, counterpart_of_getElem? hl h⟩
  by_cases hx : x ∈ l
  · obtain ⟨j, hj⟩ := List.mem_iff_getElem?.1 hx
    have hj' := counterpart_of_getElem? hl h hj
    obtain ⟨hlt, -⟩ := List.getElem?_eq_some_iff.1 hi
    rwa [(List.getElem?_inj hlt (h.nodup hl)).1 (hi.trans hj'.symm)]
  · rw [counterpart_of_not_mem hx] at hi
    exact absurd (h.mem_iff.2 (List.mem_of_getElem? hi)) hx

theorem counterpart_counterpart : counterpart m l (counterpart l m x) = x := by
  by_cases hx : x ∈ l
  · obtain ⟨i, hi⟩ := List.mem_iff_getElem?.1 hx
    have hm := counterpart_of_getElem? hl h hi
    have hback := counterpart_of_getElem? (h.nodup hl) h.symm hm
    exact Option.some.inj (hback.symm.trans hi)
  · rw [counterpart_of_not_mem hx, counterpart_of_not_mem (mt h.mem_iff.2 hx)]

omit h in
theorem counterpart_self : counterpart l l x = x := by
  by_cases hx : x ∈ l
  · obtain ⟨i, hi⟩ := List.mem_iff_getElem?.1 hx
    exact Option.some.inj ((counterpart_of_getElem? hl (.refl l) hi).symm.trans hi)
  · exact counterpart_of_not_mem hx

theorem counterpart_bijective : Function.Bijective (counterpart l m) :=
  Function.bijective_iff_has_inverse.2 ⟨counterpart m l, fun _ => counterpart_counterpart hl h,
    fun _ => counterpart_counterpart (h.nodup hl) h.symm⟩

end Counterpart

theorem OrderedSet.perm_of_sameMembers {α : Type u} [Ord α] [Std.TransOrd α] {s t : OrderedSet α}
    (h : s.sameMembers t) : s.toList.Perm t.toList :=
  (List.perm_ext_iff_of_nodup s.nodup t.nodup).2 (sameMembers_iff.1 h)

theorem OrderedMap.get?_eq_of_sameEntries {κ : Type u} {ν : Type v} [Ord κ] [Std.TransOrd κ]
    [DecidableEq ν] {m n : OrderedMap κ ν} (h : m.sameEntries n) (k : κ) : m.get? k = n.get? k := by
  obtain ⟨hsize, hall⟩ := Bool.and_eq_true_iff.1 h
  have hget : ∀ {k v}, m.get? k = some v → n.get? k = some v := fun {k v} hk =>
    beq_iff_eq.1 (List.all_eq_true.1 hall (k, v) (get?_eq_some_iff.1 hk))
  have hsub : m.keys ⊆ n.keys := by
    intro k hk
    obtain ⟨v, hv⟩ := mem_keys_iff.1 hk
    exact mem_keys_iff.2 ⟨v, hget hv⟩
  have hlength : n.keys.length ≤ m.keys.length := by
    simp only [keys, List.length_map, length_entries]
    exact Nat.le_of_eq (beq_iff_eq.1 hsize).symm
  have hkeys := ((List.Nodup.subperm m.nodup_keys hsub).perm_of_length_le hlength).mem_iff (a := k)
  cases hm : m.get? k with
  | some v => exact (hget hm).symm
  | none =>
    cases hn : n.get? k with
    | none => rfl
    | some v =>
      obtain ⟨v', hv'⟩ := mem_keys_iff.1 (hkeys.2 (mem_keys_iff.2 ⟨v, hn⟩))
      cases hm.symm.trans hv'

end Chomsky
