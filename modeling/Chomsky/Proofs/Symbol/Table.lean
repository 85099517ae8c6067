import Chomsky.Proofs.Data.Outcome
import Chomsky.Symbol.Table

/-! # Growing symbol tables

A table only grows at its end, so that a number keeps its name and its kind
(`SymbolTable.Extends`). Entering an unused name gives it the next number.
-/

namespace Chomsky.SymbolTable

/-- The symbols of `t` have the same numbers in `u`. -/
def Extends (u t : SymbolTable) : Prop := t.entries.entries <+: u.entries.entries

def Valid (t : SymbolTable) : Prop := ∀ name ∈ t.names, validName name

variable {t u v : SymbolTable} {name base stem : String} {kind : SymbolKind} {id s s' : SymbolId}
  {counter : Nat}

theorem Extends.refl (t : SymbolTable) : t.Extends t := List.prefix_rfl

theorem Extends.trans (h : v.Extends u) (h' : u.Extends t) : v.Extends t :=
  List.IsPrefix.trans h' h

theorem length_entries : t.entries.entries.length = t.size := OrderedMap.length_entries

theorem Extends.size_le (h : u.Extends t) : t.size ≤ u.size := by
  simpa only [length_entries] using h.length_le

theorem Extends.entryAt?_eq (h : u.Extends t) (hid : id < t.size) :
    u.entries.entryAt? id = t.entries.entryAt? id := by
  rw [← length_entries] at hid
  rw [← OrderedMap.getElem?_entries, ← OrderedMap.getElem?_entries, List.getElem?_eq_getElem hid]
  exact List.prefix_iff_getElem?.1 h id hid

theorem Extends.name?_eq (h : u.Extends t) (hid : id < t.size) : u.name? id = t.name? id := by
  rw [name?, name?, h.entryAt?_eq hid]

theorem Extends.name_eq (h : u.Extends t) (hid : id < t.size) : u.name id = t.name id := by
  rw [SymbolTable.name, SymbolTable.name, h.name?_eq hid]

theorem Extends.kind?_eq (h : u.Extends t) (hid : id < t.size) : u.kind? id = t.kind? id := by
  rw [kind?, kind?, h.entryAt?_eq hid]

theorem lt_size_of_name? (h : t.name? id = some name) : id < t.size := by
  rw [← getElem?_names] at h
  simpa only [length_names] using (List.getElem?_eq_some_iff.1 h).1

theorem lt_size_of_kind? (h : t.kind? id = some kind) : id < t.size := by
  rw [← getElem?_kinds] at h
  simpa only [length_kinds] using (List.getElem?_eq_some_iff.1 h).1

theorem name?_eq_some_name (hs : s < t.size) : t.name? s = some (t.name s) := by
  rw [← length_names] at hs
  rw [name, ← getElem?_names, List.getElem?_eq_getElem hs, Option.getD_some]

theorem lookup?_name (hs : s < t.size) : t.lookup? (t.name s) = some s :=
  lookup?_eq_some_iff.2 (name?_eq_some_name hs)

theorem name_injective (hs : s < t.size) (hs' : s' < t.size) (hname : t.name s = t.name s') :
    s = s' := by
  have hlookup := lookup?_name hs
  rw [hname, lookup?_name hs'] at hlookup
  exact (Option.some.inj hlookup).symm

theorem nodup_map_name {l : List SymbolId} (hl : l.Nodup) (hlt : ∀ s ∈ l, s < t.size) :
    (l.map t.name).Nodup :=
  List.pairwise_map.2 <| hl.imp_of_mem fun hs hs' hne hname =>
    hne (name_injective (hlt _ hs) (hlt _ hs') hname)

theorem exists_kind? (hid : id < t.size) : ∃ kind, t.kind? id = some kind := by
  rw [← length_kinds] at hid
  exact ⟨t.kinds[id], by rw [← getElem?_kinds, List.getElem?_eq_getElem hid]⟩

theorem isTerminal_iff : t.isTerminal id ↔ t.kind? id = some .terminal := beq_iff_eq

theorem isNonterminal_iff : t.isNonterminal id ↔ t.kind? id = some .nonterminal := beq_iff_eq

theorem lt_size_of_isTerminal (h : t.isTerminal id) : id < t.size :=
  lt_size_of_kind? (isTerminal_iff.1 h)

theorem lt_size_of_isNonterminal (h : t.isNonterminal id) : id < t.size :=
  lt_size_of_kind? (isNonterminal_iff.1 h)

theorem not_isTerminal_of_isNonterminal (h : t.isNonterminal id) : ¬t.isTerminal id := by
  rw [isTerminal_iff, isNonterminal_iff.1 h]
  decide

theorem isNonterminal_of_lt (hid : id < t.size) (h : ¬t.isTerminal id) : t.isNonterminal id := by
  obtain ⟨kind, hkind⟩ := exists_kind? hid
  cases kind with
  | terminal => exact absurd (isTerminal_iff.2 hkind) h
  | nonterminal => exact isNonterminal_iff.2 hkind

theorem Extends.isTerminal (h : u.Extends t) (hid : t.isTerminal id) : u.isTerminal id := by
  rw [isTerminal_iff, h.kind?_eq (lt_size_of_isTerminal hid)]
  exact isTerminal_iff.1 hid

theorem Extends.isNonterminal (h : u.Extends t) (hid : t.isNonterminal id) :
    u.isNonterminal id := by
  rw [isNonterminal_iff, h.kind?_eq (lt_size_of_isNonterminal hid)]
  exact isNonterminal_iff.1 hid

theorem validName_iff : validName name ↔
    name.toList ≠ [] ∧ (∀ c ∈ name.toList, ¬Text.isBlank c) ∧ name ≠ epsilon := by
  simp only [validName, Bool.and_eq_true, Bool.not_eq_true', bne_iff_ne, ne_eq,
    List.isEmpty_eq_false_iff, List.any_eq_false, and_assoc]

theorem validName_append {suffix : String} (h : validName base)
    (hsuffix : ∀ c ∈ suffix.toList, ¬Text.isBlank c) : validName (base ++ suffix) := by
  obtain ⟨hne, hblank, hepsilon⟩ := validName_iff.1 h
  refine validName_iff.2 ⟨?_, ?_, fun heq => ?_⟩
  · rw [String.toList_append]
    exact List.append_ne_nil_of_left_ne_nil hne _
  · rw [String.toList_append]
    exact List.forall_mem_append.2 ⟨hblank, hsuffix⟩
  · have hsingle : base.toList ++ suffix.toList = ['ε'] := by
      rw [← String.toList_append, heq]
      rfl
    rcases List.append_eq_singleton_iff.1 hsingle with ⟨hnil, -⟩ | ⟨hbase, -⟩
    · exact hne hnil
    · exact hepsilon (String.toList_inj.1 hbase)

theorem validName_quoted (h : validName base) (n : Nat) : validName (quoted base n) := by
  refine validName_append h fun c hc => ?_
  rw [String.toList_ofList] at hc
  rw [List.eq_of_mem_replicate hc]
  decide

theorem valid_empty : (∅ : SymbolTable).Valid := fun _ h => nomatch h

theorem not_mem_names_of_lookup? (h : t.lookup? name = none) : name ∉ t.names := by
  intro hmem
  obtain ⟨j, hj⟩ := List.mem_iff_getElem?.1 hmem
  rw [getElem?_names] at hj
  rw [lookup?_eq_some_iff.2 hj] at h
  cases h

theorem entries_insert (h : name ∉ t.names) :
    (t.entries.insert name kind).entries = t.entries.entries ++ [(name, kind)] :=
  (OrderedMap.entries_upsert _ _ _).trans (OrderedMap.upsertEntries_of_not_mem h)

/-- What entering a name does: it is found, or added at the end. -/
theorem intern_eq_ok (h : t.intern name kind = .ok (id, u)) :
    u.kind? id = some kind ∧ u.name? id = some name ∧ validName name ∧
      (u = t ∨ ¬t.contains name ∧ id = t.size ∧
        u.entries.entries = t.entries.entries ++ [(name, kind)]) := by
  unfold intern at h
  split at h
  · next hvalid =>
    split at h
    · next i hi =>
      split at h
      · next hkind =>
        cases h
        exact ⟨hkind, lookup?_eq_some_iff.1 hi, hvalid, Or.inl rfl⟩
      · cases h
    · next hnone =>
      cases h
      have hnot := not_mem_names_of_lookup? hnone
      have hentries : (t.entries.insert name kind).entries = t.entries.entries ++ [(name, kind)] :=
        entries_insert hnot
      have hentry : (t.entries.insert name kind).entryAt? t.size = some (name, kind) := by
        rw [← OrderedMap.getElem?_entries, hentries, ← length_entries]
        simp
      refine ⟨?_, ?_, hvalid, Or.inr ⟨mt contains_iff.1 hnot, rfl, hentries⟩⟩
      · rw [kind?, hentry, Option.map_some]
      · rw [name?, hentry, Option.map_some]
  · cases h

theorem extends_of_intern (h : t.intern name kind = .ok (id, u)) : u.Extends t := by
  obtain ⟨-, -, -, rfl | ⟨-, -, hentries⟩⟩ := intern_eq_ok h
  · exact .refl _
  · exact ⟨_, hentries.symm⟩

theorem kind?_of_intern (h : t.intern name kind = .ok (id, u)) : u.kind? id = some kind :=
  (intern_eq_ok h).1

theorem names_eq_of_entries {other : String}
    (h : u.entries.entries = t.entries.entries ++ [(other, kind)]) :
    u.names = t.names ++ [other] := by
  rw [names, OrderedMap.keys, h, List.map_append]
  rfl

theorem Valid.intern (ht : t.Valid) (h : t.intern name kind = .ok (id, u)) : u.Valid := by
  obtain ⟨-, -, hvalid, rfl | ⟨-, -, hentries⟩⟩ := intern_eq_ok h
  · exact ht
  · intro x hx
    rw [names_eq_of_entries hentries, List.mem_append] at hx
    rcases hx with hx | hx
    · exact ht x hx
    · rw [List.mem_singleton.1 hx]
      exact hvalid

theorem size_of_intern_unused (h : t.intern name kind = .ok (id, u)) (hunused : ¬t.contains name) :
    id = t.size ∧ u.size = t.size + 1 := by
  obtain ⟨-, hname, -, rfl | ⟨-, hid, hentries⟩⟩ := intern_eq_ok h
  · refine absurd (contains_iff.2 ?_) hunused
    rw [← getElem?_names] at hname
    exact List.mem_of_getElem? hname
  · refine ⟨hid, ?_⟩
    rw [← length_entries, hentries, List.length_append, length_entries, List.length_singleton]

theorem internAll_eq_ok {names : List String} (h : t.internAll names kind = .ok u) :
    u.Extends t ∧ (t.Valid → u.Valid) := by
  unfold internAll at h
  induction names generalizing t with
  | nil => cases h; exact ⟨.refl _, id⟩
  | cons name names ih =>
    rw [List.foldlM_cons] at h
    obtain ⟨_, hname, h⟩ := bind_eq_ok_iff.1 h
    obtain ⟨⟨id, t'⟩, hintern, rfl⟩ := map_eq_ok_iff.1 hname
    obtain ⟨hext, hvalid⟩ := ih h
    exact ⟨hext.trans (extends_of_intern hintern), fun ht => hvalid (ht.intern hintern)⟩

/-- What entering a new symbol of a kind does to a table. -/
structure Grows (t : SymbolTable) (kind : SymbolKind) (id : SymbolId) (u : SymbolTable) : Prop where
  ext : u.Extends t
  id_eq : id = t.size
  size_eq : u.size = t.size + 1
  kind_eq : u.kind? id = some kind
  valid : t.Valid → u.Valid

theorem grows_of_intern_unused (h : t.intern name kind = .ok (id, u))
    (hunused : ¬t.contains name) : t.Grows kind id u where
  ext := extends_of_intern h
  id_eq := (size_of_intern_unused h hunused).1
  size_eq := (size_of_intern_unused h hunused).2
  kind_eq := kind?_of_intern h
  valid ht := ht.intern h

theorem not_contains_leastUnused {name : Nat → String} (hname : ∀ {i j}, name i = name j → i = j)
    (n : Nat) : ¬t.contains (name (leastUnused t.contains t.size name n)) :=
  not_used_leastUnused hname (fun _ => contains_iff.1) (Nat.le_of_eq t.length_names) n

theorem grows_of_fresh (h : t.fresh base kind = .ok (id, u)) : t.Grows kind id u := by
  apply grows_of_intern_unused h
  rw [withQuotes_eq]
  exact not_contains_leastUnused (quoted_injective base) 0

theorem grows_of_freshNumbered (h : (t.freshNumbered stem counter kind).1 = .ok (id, u)) :
    t.Grows kind id u :=
  grows_of_intern_unused h (not_contains_leastUnused (numbered_injective stem) counter)

theorem Grows.isTerminal_eq (h : t.Grows .nonterminal id u) : u.isTerminal = t.isTerminal := by
  funext s
  rw [Bool.eq_iff_iff]
  constructor
  · intro hs
    rcases Nat.lt_or_eq_of_le (Nat.lt_succ_iff.1 (h.size_eq ▸ lt_size_of_isTerminal hs)) with
      hlt | rfl
    · rw [isTerminal_iff] at hs ⊢
      rw [← hs, h.ext.kind?_eq hlt]
    · rw [isTerminal_iff, ← h.id_eq, h.kind_eq] at hs
      cases hs
  · exact h.ext.isTerminal

/-- The name can be entered with the kind: it may name a symbol, and has no other kind. -/
def Admits (t : SymbolTable) (name : String) (kind : SymbolKind) : Prop :=
  validName name ∧ ∀ k, (name, k) ∈ t.entries.entries → k = kind

theorem ext_entries (h : u.entries.entries = t.entries.entries) : u = t := by
  cases u
  cases t
  congr
  exact OrderedMap.ext h

theorem mem_names_of_name? (h : t.name? id = some name) : name ∈ t.names :=
  List.mem_of_getElem? ((getElem?_names t id).trans h)

theorem mem_entries_iff_kind? (h : t.lookup? name = some id) :
    (name, kind) ∈ t.entries.entries ↔ t.kind? id = some kind := by
  constructor
  · intro hmem
    obtain ⟨j, hj⟩ := List.mem_iff_getElem?.1 hmem
    rw [OrderedMap.getElem?_entries] at hj
    have hname : t.name? j = some name := by rw [name?, hj, Option.map_some]
    obtain rfl := Option.some.inj (h.symm.trans (lookup?_eq_some_iff.2 hname))
    rw [kind?, hj, Option.map_some]
  · intro hkind
    obtain ⟨entry, hentry, rfl⟩ := Option.map_eq_some_iff.1 hkind
    have hname := lookup?_eq_some_iff.1 h
    rw [name?, hentry, Option.map_some, Option.some.injEq] at hname
    subst hname
    exact List.mem_of_getElem? (OrderedMap.getElem?_entries.trans hentry)

/-- A name that can be entered is added at the end, unless it is there. -/
theorem exists_intern_iff : (∃ id, t.intern name kind = .ok (id, u)) ↔ t.Admits name kind ∧
    u.entries.entries =
      if name ∈ t.names then t.entries.entries else t.entries.entries ++ [(name, kind)] := by
  constructor
  · rintro ⟨id, h⟩
    obtain ⟨hkind, hname, hvalid, hcases⟩ := intern_eq_ok h
    refine ⟨⟨hvalid, fun k hk => ?_⟩, ?_⟩
    · have hk := (extends_of_intern h).subset hk
      rw [mem_entries_iff_kind? (lookup?_eq_some_iff.2 hname), hkind] at hk
      exact (Option.some.inj hk).symm
    · rcases hcases with rfl | ⟨hnot, -, hentries⟩
      · rw [if_pos (mem_names_of_name? hname)]
      · rw [if_neg (mt contains_iff.2 hnot), hentries]
  · rintro ⟨⟨hvalid, hkind⟩, hentries⟩
    rw [intern, if_pos hvalid]
    cases hlookup : t.lookup? name with
    | none =>
      rw [if_neg (not_mem_names_of_lookup? hlookup)] at hentries
      refine ⟨t.size, congrArg Except.ok (Prod.ext rfl (ext_entries ?_))⟩
      rw [hentries]
      exact entries_insert (not_mem_names_of_lookup? hlookup)
    | some id =>
      have hname := lookup?_eq_some_iff.1 hlookup
      obtain ⟨k, hk⟩ := exists_kind? (lt_size_of_name? hname)
      obtain rfl := hkind k ((mem_entries_iff_kind? hlookup).2 hk)
      rw [if_pos (mem_names_of_name? hname)] at hentries
      refine ⟨id, ?_⟩
      rw [ext_entries hentries]
      exact if_pos hk

theorem admits_iff_of_entries {other : String}
    (h : u.entries.entries = t.entries.entries ++ [(other, kind)]) :
    u.Admits name kind ↔ t.Admits name kind := by
  refine and_congr_right fun _ => forall_congr' fun k => ?_
  rw [h, List.mem_append, List.mem_singleton]
  constructor
  · exact fun hk hmem => hk (Or.inl hmem)
  · rintro hk (hmem | heq)
    · exact hk hmem
    · exact (Prod.mk.inj heq).2

/-- Names are entered if each of them can be, and the new ones are added in their order. -/
theorem internAll_eq_ok_iff {names : List String} : t.internAll names kind = .ok u ↔
    (∀ name ∈ names, t.Admits name kind) ∧
      u.entries.entries =
        t.entries.entries ++ (unseen t.names names).map fun name => (name, kind) := by
  unfold internAll
  induction names generalizing t with
  | nil =>
    rw [List.foldlM_nil, pure_eq_ok_iff, unseen_nil, List.map_nil, List.append_nil]
    exact ⟨fun h => ⟨nofun, h ▸ rfl⟩, fun h => (ext_entries h.2).symm⟩
  | cons name names ih =>
    rw [List.foldlM_cons, bind_eq_ok_iff]
    have hhead : ∀ t₁, (t.intern name kind).map Prod.snd = .ok t₁ ↔
        ∃ id, t.intern name kind = .ok (id, t₁) := by
      intro t₁
      rw [map_eq_ok_iff, Prod.exists]
      simp
    simp only [hhead, exists_intern_iff, ih]
    by_cases hmem : name ∈ t.names
    · simp only [if_pos hmem, unseen_cons_of_mem hmem]
      constructor
      · rintro ⟨t₁, ⟨hname, h₁⟩, hall, hu⟩
        obtain rfl := ext_entries h₁
        exact ⟨List.forall_mem_cons.2 ⟨hname, hall⟩, hu⟩
      · rintro ⟨hall, hu⟩
        obtain ⟨hname, hall⟩ := List.forall_mem_cons.1 hall
        exact ⟨t, ⟨hname, rfl⟩, hall, hu⟩
    · simp only [if_neg hmem, unseen_cons_of_not_mem hmem]
      constructor
      · rintro ⟨t₁, ⟨hname, h₁⟩, hall, hu⟩
        simp only [admits_iff_of_entries h₁] at hall
        rw [h₁, names_eq_of_entries h₁, List.append_assoc] at hu
        exact ⟨List.forall_mem_cons.2 ⟨hname, hall⟩, hu⟩
      · rintro ⟨hall, hu⟩
        obtain ⟨hname, hall⟩ := List.forall_mem_cons.1 hall
        have h₁ : (⟨t.entries.insert name kind⟩ : SymbolTable).entries.entries =
            t.entries.entries ++ [(name, kind)] := entries_insert hmem
        refine ⟨⟨t.entries.insert name kind⟩, ⟨hname, h₁⟩, ?_, ?_⟩
        · simpa only [admits_iff_of_entries h₁] using hall
        · rw [h₁, names_eq_of_entries h₁, List.append_assoc]
          exact hu

/-- Why a name cannot be entered with the kind. -/
def Refuses (t : SymbolTable) (name : String) (kind : SymbolKind) (cause : LanguageError) : Prop :=
  ¬validName name ∧ cause = .invalidName name ∨
    (∃ k, (name, k) ∈ t.entries.entries ∧ k ≠ kind) ∧ cause = .kindConflict name

theorem intern_eq_error {cause : LanguageError} (h : t.intern name kind = .error cause) :
    t.Refuses name kind cause := by
  unfold intern at h
  split at h
  · split at h
    · next i hi =>
      split at h
      · cases h
      · next hkind =>
        cases h
        obtain ⟨k, hk⟩ := exists_kind? (lt_size_of_name? (lookup?_eq_some_iff.1 hi))
        refine Or.inr ⟨⟨k, (mem_entries_iff_kind? hi).2 hk, ?_⟩, rfl⟩
        rintro rfl
        exact hkind hk
    · cases h
  · next hvalid =>
    cases h
    exact Or.inl ⟨hvalid, rfl⟩

theorem internAll_eq_error {names : List String} {cause : LanguageError}
    (h : t.internAll names kind = .error cause) : ∃ name ∈ names, t.Refuses name kind cause := by
  unfold internAll at h
  induction names generalizing t with
  | nil => cases h
  | cons name names ih =>
    rw [List.foldlM_cons] at h
    rcases bind_eq_error_iff.1 h with h | ⟨t₁, h₁, h⟩
    · exact ⟨name, List.mem_cons_self, intern_eq_error (map_eq_error_iff.1 h)⟩
    · obtain ⟨⟨id, _⟩, hintern, rfl⟩ := map_eq_ok_iff.1 h₁
      obtain ⟨other, hmem, hrefuses⟩ := ih h
      refine ⟨other, List.mem_cons_of_mem name hmem, hrefuses.imp_right ?_⟩
      rintro ⟨⟨k, hk, hne⟩, hcause⟩
      refine ⟨⟨k, ?_, hne⟩, hcause⟩
      obtain ⟨-, -, -, rfl | ⟨-, -, hentries⟩⟩ := intern_eq_ok hintern
      · exact hk
      · rw [hentries, List.mem_append, List.mem_singleton] at hk
        exact hk.resolve_right fun heq => hne (Prod.mk.inj heq).2

section Lists

/-- The table holds nonterminals first and then terminals. -/
def Lists (t : SymbolTable) (nonterminals terminals : List String) : Prop :=
  t.entries.entries = nonterminals.map (fun name => (name, .nonterminal)) ++
    terminals.map fun name => (name, .terminal)

variable {nonterminals terminals : List String}

theorem exists_lists (h : (nonterminals ++ terminals).Nodup) :
    ∃ t : SymbolTable, t.Lists nonterminals terminals := by
  refine ⟨⟨.ofList _⟩, OrderedMap.entries_ofList ?_⟩
  simpa only [List.map_append, List.map_map, Function.comp_def, List.map_id'] using h

variable (h : t.Lists nonterminals terminals)
include h

theorem Lists.names_eq : t.names = nonterminals ++ terminals := by
  rw [names, OrderedMap.keys, h]
  simp only [List.map_append, List.map_map, Function.comp_def, List.map_id']

theorem Lists.size_eq : t.size = nonterminals.length + terminals.length := by
  rw [← length_names, h.names_eq, List.length_append]

theorem Lists.name?_nonterminal (hid : id < nonterminals.length) :
    t.name? id = nonterminals[id]? := by
  rw [← getElem?_names, h.names_eq, List.getElem?_append_left hid]

theorem Lists.name?_terminal (i : Nat) : t.name? (nonterminals.length + i) = terminals[i]? := by
  rw [← getElem?_names, h.names_eq, List.getElem?_append_right (Nat.le_add_right _ i),
    Nat.add_sub_cancel_left]

theorem Lists.kinds_eq : t.kinds = List.replicate nonterminals.length .nonterminal ++
    List.replicate terminals.length .terminal := by
  rw [kinds, OrderedMap.values, h]
  simp only [List.map_append, List.map_map, Function.comp_def, List.map_const']

theorem Lists.isNonterminal_iff : t.isNonterminal id ↔ id < nonterminals.length := by
  rw [SymbolTable.isNonterminal_iff, ← getElem?_kinds, h.kinds_eq, List.getElem?_append,
    List.length_replicate]
  split
  · next hid => simp [hid]
  · next hid => simp [hid, List.getElem?_replicate]

theorem Lists.isTerminal_iff :
    t.isTerminal id ↔ ∃ i < terminals.length, id = nonterminals.length + i := by
  constructor
  · intro hid
    have hlt := lt_size_of_isTerminal hid
    have hge : nonterminals.length ≤ id := Nat.le_of_not_lt fun hlt =>
      not_isTerminal_of_isNonterminal (h.isNonterminal_iff.2 hlt) hid
    rw [h.size_eq] at hlt
    exact ⟨id - nonterminals.length, Nat.sub_lt_left_of_lt_add hge hlt,
      (Nat.add_sub_of_le hge).symm⟩
  · rintro ⟨i, hi, rfl⟩
    rw [SymbolTable.isTerminal_iff, ← getElem?_kinds, h.kinds_eq,
      List.getElem?_append_right (by simp)]
    simp [hi]

theorem Lists.map_name_filter_isTerminal :
    (t.ids.filter t.isTerminal).map t.name = terminals := by
  have hnonterminals : (List.range nonterminals.length).filter t.isTerminal = [] :=
    List.filter_eq_nil_iff.2 fun id hid => not_isTerminal_of_isNonterminal <|
      h.isNonterminal_iff.2 (List.mem_range.1 hid)
  have hterminals : ((List.range terminals.length).map (nonterminals.length + ·)).filter
      t.isTerminal = (List.range terminals.length).map (nonterminals.length + ·) := by
    refine List.filter_eq_self.2 fun id hid => ?_
    obtain ⟨i, hi, rfl⟩ := List.mem_map.1 hid
    exact h.isTerminal_iff.2 ⟨i, List.mem_range.1 hi, rfl⟩
  rw [ids, h.size_eq, List.range_add, List.filter_append, hnonterminals, hterminals,
    List.nil_append, List.map_map]
  refine List.ext_getElem (by simp) fun i hi hi' => ?_
  simp [name, h.name?_terminal, hi']

end Lists

end Chomsky.SymbolTable
