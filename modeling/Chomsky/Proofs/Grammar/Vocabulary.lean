import Chomsky.Proofs.Grammar.Inference

/-! # Which names may be used

A table grows with every name that is resolved against it. Still, which names may be used and which
kinds they have or would get stays the same throughout (`Vocabulary.Keeps`). So it is known before
the first name is resolved whether all of them can be (`exists_resolveRules_iff`).
-/

namespace Chomsky

namespace SymbolTable

variable {t u : SymbolTable} {names : List String} {name : String} {kind k : SymbolKind}

theorem mem_names_iff_get? : name ∈ t.names ↔ ∃ kind, t.entries.get? name = some kind :=
  OrderedMap.mem_keys_iff

theorem exists_internAll_iff :
    (∃ u, t.internAll names kind = .ok u) ↔ ∀ name ∈ names, t.Admits name kind := by
  constructor
  · rintro ⟨u, h⟩
    exact (internAll_eq_ok_iff.1 h).1
  · intro h
    cases hintern : t.internAll names kind with
    | ok u => exact ⟨u, rfl⟩
    | error cause =>
      obtain ⟨name, hname, ⟨hinvalid, -⟩ | ⟨⟨k, hk, hne⟩, -⟩⟩ := internAll_eq_error hintern
      · exact absurd (h name hname).1 hinvalid
      · exact absurd ((h name hname).2 k hk) hne

theorem mem_entries_internAll (h : t.internAll names kind = .ok u) :
    (name, k) ∈ u.entries.entries ↔ (name, k) ∈ t.entries.entries ∨ name ∈ names ∧ k = kind := by
  obtain ⟨hadmits, hentries⟩ := internAll_eq_ok_iff.1 h
  rw [hentries, List.mem_append]
  refine or_congr_right' fun hnot => ⟨fun hmem => ?_, ?_⟩
  · obtain ⟨x, hx, heq⟩ := List.mem_map.1 hmem
    cases heq
    exact ⟨(mem_unseen.1 hx).1, rfl⟩
  · rintro ⟨hname, rfl⟩
    refine List.mem_map.2 ⟨name, mem_unseen.2 ⟨hname, fun hmem => hnot ?_⟩, rfl⟩
    obtain ⟨k', hk'⟩ := mem_names_iff_get?.1 hmem
    have hentry := OrderedMap.get?_eq_some_iff.1 hk'
    rwa [(hadmits name hname).2 k' hentry] at hentry

end SymbolTable

namespace Vocabulary

variable {v : Vocabulary} {t u u' : SymbolTable} {name : String} {names : List String}
  {id : SymbolId} {form : Form} {lines : List (String × List String)}
  {rules : List (SymbolId × Form)} {k : SymbolKind}

def Usable (v : Vocabulary) (t : SymbolTable) (name : String) : Prop :=
  name ∈ t.names ∨ validName name ∧ v.closed (v.kindOf name) = false

def kindIn (v : Vocabulary) (t : SymbolTable) (name : String) : SymbolKind :=
  (t.entries.get? name).getD (v.kindOf name)

theorem get?_eq_some_iff_kindIn :
    t.entries.get? name = some k ↔ name ∈ t.names ∧ k = v.kindIn t name := by
  rw [SymbolTable.mem_names_iff_get?, kindIn]
  cases t.entries.get? name with
  | none => simp
  | some kind => simp [eq_comm]

/-- A table with more names, in which the same names may be used and have or would get the same
kinds. -/
structure Keeps (v : Vocabulary) (t u : SymbolTable) : Prop where
  usable_iff : ∀ x, v.Usable u x ↔ v.Usable t x
  kindIn_eq : ∀ x, v.kindIn u x = v.kindIn t x

theorem Keeps.refl (v : Vocabulary) (t : SymbolTable) : v.Keeps t t :=
  ⟨fun _ => Iff.rfl, fun _ => rfl⟩

theorem Keeps.trans (h : v.Keeps t u) (h' : v.Keeps u u') : v.Keeps t u' :=
  ⟨fun x => (h'.usable_iff x).trans (h.usable_iff x),
    fun x => (h'.kindIn_eq x).trans (h.kindIn_eq x)⟩

theorem kindIn_of_entries (h : u.entries.entries = t.entries.entries ++ [(name, v.kindOf name)])
    (x : String) : v.kindIn u x = v.kindIn t x := by
  have hget : ∀ kind, u.entries.get? x = some kind ↔
      t.entries.get? x = some kind ∨ x = name ∧ kind = v.kindOf name := by
    intro kind
    rw [OrderedMap.get?_eq_some_iff, h, List.mem_append, List.mem_singleton, Prod.mk.injEq,
      OrderedMap.get?_eq_some_iff]
  unfold kindIn
  cases hold : t.entries.get? x with
  | some kind => rw [(hget kind).2 (Or.inl hold)]
  | none =>
    rw [hold] at hget
    by_cases hx : x = name
    · rw [(hget _).2 (Or.inr ⟨hx, rfl⟩), hx]
      rfl
    · have hnew : u.entries.get? x = none := Option.eq_none_iff_forall_ne_some.2 fun kind hk =>
        ((hget kind).1 hk).elim nofun fun heq => hx heq.1
      rw [hnew]

theorem keeps_of_resolve (h : v.resolve t name = .ok (id, u)) : v.Keeps t u := by
  rcases resolve_cases h with ⟨rfl, -⟩ | ⟨hnot, hopen, hintern⟩
  · exact .refl v u
  · obtain ⟨hadmits, hentries⟩ := SymbolTable.exists_intern_iff.1 ⟨id, hintern⟩
    rw [if_neg hnot] at hentries
    refine ⟨fun x => ?_, kindIn_of_entries hentries⟩
    rw [Usable, Usable, SymbolTable.names_eq_of_entries hentries, List.mem_append,
      List.mem_singleton, or_assoc]
    refine or_congr_right (or_iff_right_of_imp ?_)
    rintro rfl
    exact ⟨hadmits.1, hopen⟩

theorem exists_resolve_iff : (∃ p, v.resolve t name = .ok p) ↔ v.Usable t name := by
  unfold resolve
  cases hlookup : t.lookup? name with
  | some id =>
    have hmem := SymbolTable.mem_names_of_name? (SymbolTable.lookup?_eq_some_iff.1 hlookup)
    exact iff_of_true ⟨_, rfl⟩ (Or.inl hmem)
  | none =>
    have hnot := SymbolTable.not_mem_names_of_lookup? hlookup
    rw [Usable, or_iff_right hnot]
    dsimp only
    split
    · next hclosed => exact iff_of_false nofun fun h => by simp [hclosed] at h
    · next hopen =>
      rw [and_iff_left (Bool.eq_false_iff.2 hopen)]
      constructor
      · rintro ⟨⟨id, u⟩, h⟩
        exact (SymbolTable.intern_eq_ok h).2.2.1
      · exact fun h => SymbolTable.exists_intern h (mt SymbolTable.contains_iff.1 hnot)

theorem keeps_of_resolveAll (h : v.resolveAll t names = .ok (form, u)) : v.Keeps t u := by
  induction names generalizing t form with
  | nil => cases h; exact .refl v _
  | cons name names ih =>
    obtain ⟨⟨id, t₁⟩, hname, h⟩ := bind_eq_ok_iff.1 h
    obtain ⟨⟨ids, t₂⟩, hrest, h⟩ := bind_eq_ok_iff.1 h
    cases h
    exact (keeps_of_resolve hname).trans (ih hrest)

theorem exists_resolveAll_iff :
    (∃ p, v.resolveAll t names = .ok p) ↔ ∀ name ∈ names, v.Usable t name := by
  induction names generalizing t with
  | nil => exact iff_of_true ⟨_, rfl⟩ nofun
  | cons name names ih =>
    rw [List.forall_mem_cons]
    refine exists_bind_eq_ok_iff exists_resolve_iff ?_
    rintro ⟨id, t₁⟩ hname
    simp only [← (keeps_of_resolve hname).usable_iff]
    exact exists_bind_pure_eq_ok_iff.trans ih

theorem kindIn_of_lookup? (h : t.lookup? name = some id) :
    t.kind? id = some (v.kindIn t name) := by
  obtain rfl := eq_name_of_lookup? h
  have hlt := SymbolTable.lt_size_of_name? (SymbolTable.lookup?_eq_some_iff.1 h)
  obtain ⟨kind, hkind⟩ := SymbolTable.exists_kind? hlt
  rw [kindIn, SymbolTable.get?_name hlt, hkind, Option.getD_some]

theorem exists_resolveNonterminal_iff : (∃ p, v.resolveNonterminal t name = .ok p) ↔
    v.Usable t name ∧ v.kindIn t name = .nonterminal := by
  refine exists_bind_eq_ok_iff exists_resolve_iff ?_
  rintro ⟨id, u⟩ hname
  have hkind := kindIn_of_lookup? (v := v) (enters_of_resolve hname).2
  rw [(keeps_of_resolve hname).kindIn_eq] at hkind
  dsimp only
  rw [SymbolTable.isNonterminal, hkind]
  cases v.kindIn t name with
  | terminal => exact iff_of_false nofun nofun
  | nonterminal => exact iff_of_true ⟨_, rfl⟩ rfl

theorem keeps_of_resolveNonterminal (h : v.resolveNonterminal t name = .ok (id, u)) :
    v.Keeps t u := by
  obtain ⟨⟨id', t₁⟩, hname, h⟩ := bind_eq_ok_iff.1 h
  dsimp only at h
  split at h
  · cases pure_eq_ok_iff.1 h
    exact keeps_of_resolve hname
  · cases h

theorem keeps_of_resolveRules (h : v.resolveRules t lines = .ok (rules, u)) : v.Keeps t u := by
  induction lines generalizing t rules with
  | nil => cases h; exact .refl v _
  | cons line lines ih =>
    obtain ⟨⟨lhs, t₁⟩, hlhs, h⟩ := bind_eq_ok_iff.1 h
    obtain ⟨⟨rhs, t₂⟩, hrhs, h⟩ := bind_eq_ok_iff.1 h
    obtain ⟨⟨rules, t₃⟩, hrest, h⟩ := bind_eq_ok_iff.1 h
    cases h
    exact ((keeps_of_resolveNonterminal hlhs).trans (keeps_of_resolveAll hrhs)).trans (ih hrest)

theorem exists_resolveRules_iff : (∃ p, v.resolveRules t lines = .ok p) ↔
    ∀ line ∈ lines, (v.Usable t line.1 ∧ v.kindIn t line.1 = .nonterminal) ∧
      ∀ name ∈ line.2, v.Usable t name := by
  induction lines generalizing t with
  | nil => exact iff_of_true ⟨_, rfl⟩ nofun
  | cons line lines ih =>
    rw [List.forall_mem_cons, and_assoc]
    refine exists_bind_eq_ok_iff exists_resolveNonterminal_iff ?_
    rintro ⟨lhs, t₁⟩ hlhs
    have hkeeps := keeps_of_resolveNonterminal hlhs
    simp only [← hkeeps.usable_iff, ← hkeeps.kindIn_eq]
    refine exists_bind_eq_ok_iff exists_resolveAll_iff ?_
    rintro ⟨rhs, t₂⟩ hrhs
    have hkeeps := keeps_of_resolveAll hrhs
    simp only [← hkeeps.usable_iff, ← hkeeps.kindIn_eq]
    exact exists_bind_pure_eq_ok_iff.trans ih

end Vocabulary

end Chomsky
