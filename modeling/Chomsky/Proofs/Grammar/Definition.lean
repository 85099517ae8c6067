import Chomsky.Grammar.Definition
import Chomsky.Proofs.Grammar.Consistent

/-! # Grammars of definitions

Entering the names of a definition only extends the table, so the productions stay over it. The
grammar of a definition is therefore consistent (`consistent_of_build`). Where all names are
declared, only the declarations can fail, and rules over the table are read without change to it
(`declaredTable_eq_ok_iff`, `resolveRules_known`).
-/

namespace Chomsky

namespace Vocabulary

variable {v : Vocabulary} {t u : SymbolTable} {name : String} {id : SymbolId}

theorem resolve_cases (h : v.resolve t name = .ok (id, u)) : u = t ∧ t.lookup? name = some id ∨
    name ∉ t.names ∧ v.closed (v.kindOf name) = false ∧
      t.intern name (v.kindOf name) = .ok (id, u) := by
  unfold resolve at h
  split at h
  · next hid =>
    cases h
    exact Or.inl ⟨rfl, hid⟩
  · next hnone =>
    split at h
    · cases h
    · next hopen =>
      exact Or.inr ⟨SymbolTable.not_mem_names_of_lookup? hnone, Bool.eq_false_iff.2 hopen, h⟩

theorem resolve_eq_ok (h : v.resolve t name = .ok (id, u)) :
    u.Extends t ∧ (t.Valid → u.Valid) ∧ id < u.size := by
  rcases resolve_cases h with ⟨rfl, hid⟩ | ⟨-, -, hintern⟩
  · exact ⟨.refl _, fun ht => ht,
      SymbolTable.lt_size_of_name? (SymbolTable.lookup?_eq_some_iff.1 hid)⟩
  · exact ⟨SymbolTable.extends_of_intern hintern, fun ht => ht.intern hintern,
      SymbolTable.lt_size_of_kind? (SymbolTable.kind?_of_intern hintern)⟩

theorem resolveAll_eq_ok {names : List String} {form : Form}
    (h : v.resolveAll t names = .ok (form, u)) :
    u.Extends t ∧ (t.Valid → u.Valid) ∧ ∀ s ∈ form, s < u.size := by
  induction names generalizing t form with
  | nil => cases h; exact ⟨.refl _, fun ht => ht, nofun⟩
  | cons name names ih =>
    obtain ⟨⟨id, t₁⟩, hname, h⟩ := bind_eq_ok_iff.1 h
    obtain ⟨⟨ids, t₂⟩, hrest, h⟩ := bind_eq_ok_iff.1 h
    cases h
    obtain ⟨hext₁, hvalid₁, hid⟩ := resolve_eq_ok hname
    obtain ⟨hext₂, hvalid₂, hids⟩ := ih hrest
    refine ⟨hext₂.trans hext₁, fun ht => hvalid₂ (hvalid₁ ht), fun s hs => ?_⟩
    rcases List.mem_cons.1 hs with rfl | hs
    · exact Nat.lt_of_lt_of_le hid hext₂.size_le
    · exact hids s hs

theorem resolveNonterminal_eq_ok (h : v.resolveNonterminal t name = .ok (id, u)) :
    u.Extends t ∧ (t.Valid → u.Valid) ∧ u.isNonterminal id := by
  obtain ⟨⟨id', t₁⟩, hname, h⟩ := bind_eq_ok_iff.1 h
  obtain ⟨hext, hvalid, -⟩ := resolve_eq_ok hname
  dsimp only at h
  split at h
  · next hkind =>
    cases pure_eq_ok_iff.1 h
    exact ⟨hext, hvalid, hkind⟩
  · cases h

theorem resolveRules_eq_ok {lines : List (String × List String)} {rules : List (SymbolId × Form)}
    (h : v.resolveRules t lines = .ok (rules, u)) :
    u.Extends t ∧ (t.Valid → u.Valid) ∧
      ∀ lhs rhs, (lhs, rhs) ∈ rules → u.isNonterminal lhs ∧ ∀ s ∈ rhs, s < u.size := by
  induction lines generalizing t rules with
  | nil => cases h; exact ⟨.refl _, fun ht => ht, nofun⟩
  | cons line lines ih =>
    obtain ⟨⟨lhs, t₁⟩, hlhs, h⟩ := bind_eq_ok_iff.1 h
    obtain ⟨⟨rhs, t₂⟩, hrhs, h⟩ := bind_eq_ok_iff.1 h
    obtain ⟨⟨rules, t₃⟩, hrest, h⟩ := bind_eq_ok_iff.1 h
    cases h
    obtain ⟨hext₁, hvalid₁, hkind⟩ := resolveNonterminal_eq_ok hlhs
    obtain ⟨hext₂, hvalid₂, hlt⟩ := resolveAll_eq_ok hrhs
    obtain ⟨hext₃, hvalid₃, hrules⟩ := ih hrest
    refine ⟨hext₃.trans (hext₂.trans hext₁), fun ht => hvalid₃ (hvalid₂ (hvalid₁ ht)), ?_⟩
    intro l r hmem
    rcases List.mem_cons.1 hmem with heq | hmem
    · obtain ⟨rfl, rfl⟩ := Prod.mk.inj heq
      exact ⟨(hext₃.trans hext₂).isNonterminal hkind,
        fun s hs => Nat.lt_of_lt_of_le (hlt s hs) hext₃.size_le⟩
    · exact hrules l r hmem

section Known

variable {v : Vocabulary} {t : SymbolTable}

theorem resolve_known {name : String} {id : SymbolId} (h : t.lookup? name = some id) :
    v.resolve t name = .ok (id, t) := by
  rw [resolve, h]

theorem resolveAll_known {names : List String} {form : Form}
    (h : names.map t.lookup? = form.map some) : v.resolveAll t names = .ok (form, t) := by
  induction names generalizing form with
  | nil =>
    obtain rfl := List.map_eq_nil_iff.1 h.symm
    rfl
  | cons name names ih =>
    cases form with
    | nil => cases h
    | cons id form =>
      obtain ⟨hname, hnames⟩ := List.cons.inj h
      rw [resolveAll, resolve_known hname]
      change (v.resolveAll t names >>= _) = _
      rw [ih hnames]
      rfl

theorem resolveNonterminal_known {name : String} {id : SymbolId} (h : t.lookup? name = some id)
    (hid : t.isNonterminal id) : v.resolveNonterminal t name = .ok (id, t) := by
  rw [resolveNonterminal, resolve_known h]
  exact if_pos hid

def Reads (t : SymbolTable) (line : String × List String) (rule : SymbolId × Form) : Prop :=
  t.lookup? line.1 = some rule.1 ∧ line.2.map t.lookup? = rule.2.map some

theorem Reads.unique {line : String × List String} {rule rule' : SymbolId × Form}
    (h : Reads t line rule) (h' : Reads t line rule') : rule = rule' := by
  have hright := h.2.symm.trans h'.2
  rw [List.map_inj_right fun _ _ => Option.some.inj] at hright
  exact Prod.ext (Option.some.inj (h.1.symm.trans h'.1)) hright

theorem reads_name {rule : SymbolId × Form} (hlhs : rule.1 < t.size)
    (hrhs : ∀ s ∈ rule.2, s < t.size) : Reads t (t.name rule.1, rule.2.map t.name) rule := by
  refine ⟨SymbolTable.lookup?_name hlhs, ?_⟩
  rw [List.map_map]
  exact List.map_congr_left fun s hs => SymbolTable.lookup?_name (hrhs s hs)

theorem resolveRules_known {rules : List (SymbolId × Form)}
    (h : ∀ rule ∈ rules, t.isNonterminal rule.1 ∧ ∀ s ∈ rule.2, s < t.size) :
    v.resolveRules t (rules.map fun rule => (t.name rule.1, rule.2.map t.name)) =
      .ok (rules, t) := by
  induction rules with
  | nil => rfl
  | cons rule rules ih =>
    obtain ⟨⟨hkind, hrhs⟩, h⟩ := List.forall_mem_cons.1 h
    have hreads := reads_name (SymbolTable.lt_size_of_isNonterminal hkind) hrhs
    rw [List.map_cons, resolveRules, resolveNonterminal_known hreads.1 hkind]
    change (v.resolveAll t (rule.2.map t.name) >>= _) = _
    rw [resolveAll_known hreads.2]
    change (v.resolveRules t _ >>= _) = _
    rw [ih h]
    rfl

end Known

end Vocabulary

namespace GrammarDefinition

variable {d : GrammarDefinition} {g : Grammar}

theorem consistent_withDeclared (h : g.Consistent) : (withDeclared g).Consistent where
  valid := h.valid
  start_mem := OrderedSet.mem_insertAll.2 (Or.inl h.start_mem)
  key_mem lhs hlhs := OrderedSet.mem_insertAll.2 (Or.inl (h.key_mem lhs hlhs))
  symbol_mem hrhs s hs :=
    (h.symbol_mem hrhs s hs).imp (fun hs => OrderedSet.mem_insertAll.2 (Or.inl hs)) fun hs =>
      OrderedSet.mem_insertAll.2 (Or.inl hs)
  nonterminal s hs := by
    rcases OrderedSet.mem_insertAll.1 hs with hs | hs
    · exact h.nonterminal s hs
    · exact (List.mem_filter.1 hs).2
  terminal s hs := by
    rcases OrderedSet.mem_insertAll.1 hs with hs | hs
    · exact h.terminal s hs
    · exact (List.mem_filter.1 hs).2

theorem valid_of_declaredTable {start : String} {t : SymbolTable}
    (h : d.declaredTable start = .ok t) : t.Valid := by
  obtain ⟨t₁, h₁, h⟩ := bind_eq_ok_iff.1 h
  obtain ⟨t₂, h₂, h⟩ := bind_eq_ok_iff.1 h
  have hvalid := (SymbolTable.internAll_eq_ok h₂).2
    ((SymbolTable.internAll_eq_ok h₁).2 SymbolTable.valid_empty)
  split at h
  · cases h
    exact hvalid
  · exact (SymbolTable.internAll_eq_ok h).2 hvalid

section Declared

variable {start : String} {nonterminals terminals : List String} {t u : SymbolTable}

theorem internAll_nonterminals_iff (hnodup : nonterminals.Nodup) :
    SymbolTable.internAll ∅ nonterminals .nonterminal = .ok t ↔
      (∀ name ∈ nonterminals, validName name) ∧ t.Lists nonterminals [] := by
  have hunseen : unseen (∅ : SymbolTable).names nonterminals = nonterminals :=
    unseen_of_nodup hnodup
  have hadmits : ∀ {name}, (∅ : SymbolTable).Admits name .nonterminal ↔ validName name :=
    and_iff_left fun _ hk => nomatch hk
  rw [SymbolTable.internAll_eq_ok_iff, hunseen, SymbolTable.Lists, List.map_nil, List.append_nil]
  simp only [hadmits]
  rfl

theorem mem_entries_iff {name : String} {kind : SymbolKind} (ht : t.Lists nonterminals []) :
    (name, kind) ∈ t.entries.entries ↔ name ∈ nonterminals ∧ kind = .nonterminal := by
  rw [ht, List.map_nil, List.append_nil, List.mem_map]
  constructor
  · rintro ⟨_, hname, heq⟩
    cases heq
    exact ⟨hname, rfl⟩
  · rintro ⟨hname, rfl⟩
    exact ⟨name, hname, rfl⟩

theorem internAll_terminals_iff (ht : t.Lists nonterminals [])
    (hnodup : nonterminals.Nodup) (hnodup' : terminals.Nodup) :
    t.internAll terminals .terminal = .ok u ↔
      (∀ name ∈ terminals, validName name ∧ name ∉ nonterminals) ∧
        u.Lists nonterminals terminals := by
  have hadmits : ∀ {name}, t.Admits name .terminal ↔ validName name ∧ name ∉ nonterminals := by
    intro name
    refine and_congr_right fun _ => ?_
    simp only [mem_entries_iff ht]
    constructor
    · exact fun h hname => nomatch h .nonterminal ⟨hname, rfl⟩
    · exact fun hname k hk => absurd hk.1 hname
  rw [SymbolTable.internAll_eq_ok_iff]
  simp only [hadmits]
  refine and_congr_right fun hall => ?_
  have hunseen : unseen t.names terminals = terminals := by
    rw [ht.names_eq, List.append_nil]
    refine unseen_of_nodup (List.nodup_append.2 ⟨hnodup, hnodup', ?_⟩)
    rintro name hname _ hname' rfl
    exact (hall name hname').2 hname
  rw [hunseen, ht, List.map_nil, List.append_nil]
  rfl

theorem refuses_terminal_iff {name : String} {cause : LanguageError}
    (ht : t.Lists nonterminals []) : t.Refuses name .terminal cause ↔
      ¬validName name ∧ cause = .invalidName name ∨
        name ∈ nonterminals ∧ cause = .kindConflict name := by
  refine or_congr_right (and_congr_left fun _ => ?_)
  simp only [mem_entries_iff ht]
  constructor
  · exact fun ⟨_, hname, _⟩ => hname.1
  · exact fun hname => ⟨.nonterminal, ⟨hname, rfl⟩, nofun⟩

variable (hnonterminals : d.nonterminals = some nonterminals)
  (hterminals : d.terminals = some terminals) (hnodup : nonterminals.Nodup)
include hnonterminals hterminals

theorem declaredTable_eq : d.declaredTable start =
    SymbolTable.internAll ∅ nonterminals .nonterminal >>= fun t =>
      t.internAll terminals .terminal := by
  rw [declaredTable, hnonterminals, hterminals]
  simp only [Option.getD_some, Option.isSome_some, if_true, bind_pure]

include hnodup

theorem declaredTable_eq_ok_iff (hnodup' : terminals.Nodup) : d.declaredTable start = .ok t ↔
    (∀ name ∈ nonterminals, validName name) ∧
      (∀ name ∈ terminals, validName name ∧ name ∉ nonterminals) ∧
        t.Lists nonterminals terminals := by
  rw [declaredTable_eq hnonterminals hterminals, bind_eq_ok_iff]
  simp only [internAll_nonterminals_iff hnodup]
  constructor
  · rintro ⟨t₁, ⟨hvalid, h₁⟩, ht⟩
    exact ⟨hvalid, (internAll_terminals_iff h₁ hnodup hnodup').1 ht⟩
  · rintro ⟨hvalid, ht⟩
    obtain ⟨t₁, h₁⟩ := SymbolTable.exists_lists ((List.append_nil nonterminals).symm ▸ hnodup)
    exact ⟨t₁, ⟨hvalid, h₁⟩, (internAll_terminals_iff h₁ hnodup hnodup').2 ht⟩

theorem exists_mem_of_declaredTable_eq_error {cause : LanguageError}
    (hvalid : ∀ name, name ∈ nonterminals ∨ name ∈ terminals → validName name)
    (h : d.declaredTable start = .error cause) :
    ∃ name ∈ terminals, name ∈ nonterminals ∧ cause = .kindConflict name := by
  rw [declaredTable_eq hnonterminals hterminals] at h
  obtain ⟨t₁, h₁⟩ := SymbolTable.exists_lists ((List.append_nil nonterminals).symm ▸ hnodup)
  have hfirst := (internAll_nonterminals_iff hnodup).2
    ⟨fun name hname => hvalid name (Or.inl hname), h₁⟩
  rw [hfirst] at h
  obtain ⟨name, hname, hrefuses⟩ := SymbolTable.internAll_eq_error h
  rcases (refuses_terminal_iff h₁).1 hrefuses with ⟨hnot, -⟩ | hboth
  · exact absurd (hvalid name (Or.inr hname)) hnot
  · exact ⟨name, hname, hboth⟩

end Declared

theorem consistent_of_build (h : d.build = .ok g) : g.Consistent := by
  unfold build at h
  split at h
  · cases h
  · obtain ⟨t₁, h₁, h⟩ := bind_eq_ok_iff.1 h
    obtain ⟨⟨start, t₂⟩, h₂, h⟩ := bind_eq_ok_iff.1 h
    obtain ⟨⟨rules, t₃⟩, h₃, h⟩ := bind_eq_ok_iff.1 h
    have hvalid₁ := valid_of_declaredTable h₁
    obtain ⟨-, hvalid₂, hstart⟩ := Vocabulary.resolveNonterminal_eq_ok h₂
    obtain ⟨hext₃, hvalid₃, hrules⟩ := Vocabulary.resolveRules_eq_ok h₃
    have hconsistent : (Grammar.ofProductions t₃ start (.ofRules rules)).Consistent :=
      Grammar.consistent_ofProductions (hvalid₃ (hvalid₂ hvalid₁)) (hext₃.isNonterminal hstart)
        (Productions.over_ofRules hrules)
    obtain rfl := pure_eq_ok_iff.1 h
    split
    · exact consistent_withDeclared hconsistent
    · exact hconsistent

end GrammarDefinition
end Chomsky
