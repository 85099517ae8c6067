import Chomsky.Automaton.Definition
import Chomsky.Proofs.Automaton.WellFormed
import Chomsky.Proofs.Data.Outcome

/-! # Numbering the names of a definition

Names keep the numbers they have got, and every number stands for its name. The automaton of a
definition is therefore well formed (`wellFormed_of_build`).
-/

namespace Chomsky

theorem OrderedSet.get?_of_isPrefix {α : Type u} [Ord α] [Std.TransOrd α] {s t : OrderedSet α}
    (h : s.toList <+: t.toList) {i : Nat} {a : α} (ha : s.get? i = some a) : t.get? i = some a := by
  rw [← OrderedSet.getElem?_toList] at ha ⊢
  obtain ⟨hi, ha⟩ := List.getElem?_eq_some_iff.1 ha
  rw [← ha]
  exact List.prefix_iff_getElem?.1 h i hi

theorem OrderedSet.size_le_of_isPrefix {α : Type u} [Ord α] [Std.TransOrd α] {s t : OrderedSet α}
    (h : s.toList <+: t.toList) : s.size ≤ t.size := by
  simpa using h.length_le

theorem OrderedSet.lt_size_of_get? {α : Type u} [Ord α] [Std.TransOrd α] {s : OrderedSet α}
    {i : Nat} {a : α} (h : s.get? i = some a) : i < s.size := by
  rw [← OrderedSet.getElem?_toList] at h
  simpa using (List.getElem?_eq_some_iff.1 h).1

theorem OrderedSet.not_mem_of_idxOf?_eq_none {α : Type u} [Ord α] [Std.TransOrd α]
    {s : OrderedSet α} {a : α} (h : s.idxOf? a = none) : a ∉ s := by
  rw [← OrderedSet.idxOf?_isSome_iff, h]
  exact Bool.false_ne_true

theorem OrderedSet.get?_eq_iff {α : Type u} [Ord α] [Std.TransOrd α] {s : OrderedSet α} {i j : Nat}
    {a : α} (h : s.get? i = some a) : s.get? j = some a ↔ j = i := by
  constructor
  · intro hj
    have hplace := OrderedSet.get?_idxOf?_iff.2 hj
    rw [OrderedSet.get?_idxOf?_iff.2 h] at hplace
    exact (Option.some.inj hplace).symm
  · rintro rfl
    exact h

namespace AutomatonDefinition

variable {closed : Bool} {names names' : OrderedSet String} {name : String} {i : Nat}
  {d : AutomatonDefinition} {a : Automaton}

theorem resolve_eq_ok (h : resolve closed names name = .ok (i, names')) :
    names.toList <+: names'.toList ∧ names'.get? i = some name := by
  unfold resolve at h
  split at h
  · next j hj =>
    cases h
    exact ⟨List.prefix_rfl, OrderedSet.get?_idxOf?_iff.1 hj⟩
  · next hnone =>
    cases closed with
    | true => cases h
    | false =>
      cases h
      have hnot := OrderedSet.not_mem_of_idxOf?_eq_none hnone
      have hins := OrderedSet.toList_insert names name
      rw [if_neg hnot] at hins
      constructor
      · exact hins ▸ List.prefix_append _ _
      · rw [← OrderedSet.getElem?_toList, hins, ← OrderedSet.length_toList]
        simp

theorem resolveAll_eq_ok {rest : List String} {is : List Nat}
    (h : resolveAll closed names rest = .ok (is, names')) :
    names.toList <+: names'.toList ∧ is.map names'.get? = rest.map some := by
  induction rest generalizing names is with
  | nil => cases h; exact ⟨List.prefix_rfl, rfl⟩
  | cons name rest ih =>
    obtain ⟨⟨i, names₁⟩, hname, h⟩ := bind_eq_ok_iff.1 h
    obtain ⟨⟨is, names₂⟩, hrest, h⟩ := bind_eq_ok_iff.1 h
    cases h
    obtain ⟨hpre₁, hi⟩ := resolve_eq_ok hname
    obtain ⟨hpre₂, his⟩ := ih hrest
    refine ⟨hpre₁.trans hpre₂, ?_⟩
    rw [List.map_cons, List.map_cons, his, OrderedSet.get?_of_isPrefix hpre₂ hi]

theorem resolveEnds_eq_ok {rest : List (String × String × String)}
    {edges : List (StateId × String × StateId)}
    (h : resolveEnds closed names rest = .ok (edges, names')) :
    names.toList <+: names'.toList ∧
      edges.map (fun (q, x, r) => (names'.get? q, x, names'.get? r)) =
        rest.map fun (s, x, t) => (some s, x, some t) := by
  induction rest generalizing names edges with
  | nil => cases h; exact ⟨List.prefix_rfl, rfl⟩
  | cons edge rest ih =>
    obtain ⟨s, x, t⟩ := edge
    obtain ⟨⟨q, names₁⟩, hs, h⟩ := bind_eq_ok_iff.1 h
    obtain ⟨⟨r, names₂⟩, ht, h⟩ := bind_eq_ok_iff.1 h
    obtain ⟨⟨edges, names₃⟩, hrest, h⟩ := bind_eq_ok_iff.1 h
    cases h
    obtain ⟨hpre₁, hq⟩ := resolve_eq_ok hs
    obtain ⟨hpre₂, hr⟩ := resolve_eq_ok ht
    obtain ⟨hpre₃, hedges⟩ := ih hrest
    refine ⟨hpre₁.trans (hpre₂.trans hpre₃), ?_⟩
    have hq := OrderedSet.get?_of_isPrefix (hpre₂.trans hpre₃) hq
    have hr := OrderedSet.get?_of_isPrefix hpre₃ hr
    simp only [List.map_cons, hedges, hq, hr]

theorem resolveSymbols_eq_ok {alphabet alphabet' : OrderedSet String} {ts ts' : Transitions}
    {edges : List (StateId × String × StateId)} {states : Nat}
    (h : resolveSymbols closed alphabet ts edges = .ok (ts', alphabet'))
    (hts : ts.Within states alphabet.size)
    (hedges : ∀ q x r, (q, x, r) ∈ edges → q < states ∧ r < states) :
    alphabet.toList <+: alphabet'.toList ∧ ts'.Within states alphabet'.size := by
  induction edges generalizing alphabet ts with
  | nil => cases h; exact ⟨List.prefix_rfl, hts⟩
  | cons edge edges ih =>
    obtain ⟨q, x, r⟩ := edge
    obtain ⟨⟨i, alphabet₁⟩, hx, h⟩ := bind_eq_ok_iff.1 h
    obtain ⟨hpre₁, hi⟩ := resolve_eq_ok hx
    have hqr := hedges q x r List.mem_cons_self
    have hts₁ := hts.mono (Nat.le_refl states) (OrderedSet.size_le_of_isPrefix hpre₁)
    have hadd := hts₁.add hqr.1 (OrderedSet.lt_size_of_get? hi) hqr.2
    obtain ⟨hpre₂, hwithin⟩ := ih h hadd fun q x r hmem =>
      hedges q x r (List.mem_cons_of_mem _ hmem)
    exact ⟨hpre₁.trans hpre₂, hwithin⟩

theorem build_eq_ok (h : d.build = .ok a) : ∃ startName states₁ accept states₂ edges,
    d.start = some startName ∧
      resolve d.states.isSome (.ofList (d.states.getD [])) startName = .ok (a.start, states₁) ∧
      resolveAll d.states.isSome states₁ d.accept = .ok (accept, states₂) ∧
      resolveEnds d.states.isSome states₂ d.transitions = .ok (edges, a.states) ∧
      resolveSymbols d.alphabet.isSome (.ofList (d.alphabet.getD [])) ∅ edges =
        .ok (a.transitions, a.alphabet) ∧ a.accept = .ofList accept := by
  unfold build at h
  split at h
  · cases h
  · next startName hstart =>
    obtain ⟨⟨start, states₁⟩, h₁, h⟩ := bind_eq_ok_iff.1 h
    obtain ⟨⟨accept, states₂⟩, h₂, h⟩ := bind_eq_ok_iff.1 h
    obtain ⟨⟨edges, states₃⟩, h₃, h⟩ := bind_eq_ok_iff.1 h
    obtain ⟨⟨ts, alphabet⟩, h₄, h⟩ := bind_eq_ok_iff.1 h
    obtain rfl := pure_eq_ok_iff.1 h
    exact ⟨startName, states₁, accept, states₂, edges, hstart, h₁, h₂, h₃, h₄, rfl⟩

theorem wellFormed_of_build (h : d.build = .ok a) : a.WellFormed := by
  obtain ⟨startName, states₁, accept, states₂, edges, -, h₁, h₂, h₃, h₄, haccept⟩ := build_eq_ok h
  obtain ⟨-, hs⟩ := resolve_eq_ok h₁
  obtain ⟨hpre₂, ha⟩ := resolveAll_eq_ok h₂
  obtain ⟨hpre₃, he⟩ := resolveEnds_eq_ok h₃
  have hedges : ∀ q x r, (q, x, r) ∈ edges → q < a.states.size ∧ r < a.states.size := by
    intro q x r hmem
    have hmem := List.mem_map_of_mem
      (f := fun (q, x, r) => (a.states.get? q, x, a.states.get? r)) hmem
    rw [he] at hmem
    obtain ⟨⟨s, y, t⟩, -, heq⟩ := List.mem_map.1 hmem
    simp only [Prod.mk.injEq] at heq
    exact ⟨OrderedSet.lt_size_of_get? heq.1.symm, OrderedSet.lt_size_of_get? heq.2.2.symm⟩
  obtain ⟨-, hts⟩ := resolveSymbols_eq_ok h₄ Transitions.within_empty hedges
  constructor
  · exact OrderedSet.lt_size_of_get? (OrderedSet.get?_of_isPrefix (hpre₂.trans hpre₃) hs)
  · intro q hq
    have hq := List.mem_map_of_mem (f := states₂.get?) (StateSet.mem_ofList.1 (haccept ▸ hq))
    rw [ha] at hq
    obtain ⟨name, -, hname⟩ := List.mem_map.1 hq
    exact OrderedSet.lt_size_of_get? (OrderedSet.get?_of_isPrefix hpre₃ hname.symm)
  · exact hts

end AutomatonDefinition
end Chomsky
