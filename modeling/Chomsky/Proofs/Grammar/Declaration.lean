import Chomsky.Proofs.Grammar.Vocabulary
import Mathlib.Data.Set.Basic

/-! # Productions in any order

Whether a grammar can be built and which nonterminals and terminals it has is said by sets of names
and of productions (`Buildable`, `Designates`). The order of the productions only matters for that
of the alternatives (`build_spec`).
-/

namespace Chomsky

namespace GrammarDefinition

variable {d d' : GrammarDefinition} {start name : String} {kind : SymbolKind} {t : SymbolTable}
  {g g' : Grammar}

def declared (d : GrammarDefinition) : SymbolKind → Option (List String)
  | .nonterminal => d.nonterminals
  | .terminal => d.terminals

def heads (d : GrammarDefinition) (start : String) : List String :=
  if d.nonterminals.isSome then [] else start :: d.rules.map Prod.fst

def mentioned (d : GrammarDefinition) (start : String) : List String :=
  d.nonterminals.getD [] ++ d.terminals.getD [] ++ start :: namesOf d.rules

def assignedKind (d : GrammarDefinition) (start name : String) : SymbolKind :=
  if name ∈ d.nonterminals.getD [] then .nonterminal
  else if name ∈ d.terminals.getD [] then .terminal
  else if name ∈ d.heads start then .nonterminal
  else d.vocabulary.kindOf name

/-- A name is valid, and declared if the names of its kind are. -/
def Allows (d : GrammarDefinition) (start name : String) : Prop :=
  validName name ∧ ∀ names, d.declared (d.assignedKind start name) = some names → name ∈ names

/-- The definition makes a grammar: declared names are valid and of one kind, the names in use are
allowed, and the start symbol and the left-hand sides are nonterminals. -/
structure Buildable (d : GrammarDefinition) (start : String) : Prop where
  valid : ∀ name, name ∈ d.nonterminals.getD [] ∨ name ∈ d.terminals.getD [] → validName name
  disjoint : ∀ name ∈ d.terminals.getD [], name ∉ d.nonterminals.getD []
  allows : ∀ name ∈ start :: namesOf d.rules, d.Allows start name
  left : ∀ name ∈ start :: d.rules.map Prod.fst, d.assignedKind start name = .nonterminal

/-- A declared nonterminal, or without declared nonterminals a name that is not a declared terminal
and is the start symbol, a left-hand side, or a name with an uppercase initial. -/
def Designates (d : GrammarDefinition) (start name : String) : Prop :=
  name ∈ d.nonterminals.getD [] ∨ d.nonterminals = none ∧ name ∉ d.terminals.getD [] ∧
    (name = start ∨ name ∈ d.rules.map Prod.fst ∨ ∃ c ∈ name.toList.head?, Text.isUppercase c)

/-- Definitions with the same declared names, if any, and the same productions in any order. -/
structure SameSets (d d' : GrammarDefinition) : Prop where
  start : d.start = d'.start
  nonterminals : d.nonterminals.map (fun names => {name | name ∈ names}) =
    d'.nonterminals.map fun names => {name | name ∈ names}
  terminals : d.terminals.map (fun names => {name | name ∈ names}) =
    d'.terminals.map fun names => {name | name ∈ names}
  rules : ∀ line, line ∈ d.rules ↔ line ∈ d'.rules

theorem mem_heads :
    name ∈ d.heads start ↔ d.nonterminals = none ∧ name ∈ start :: d.rules.map Prod.fst := by
  unfold heads
  cases d.nonterminals <;> simp

theorem mem_mentioned : name ∈ d.mentioned start ↔ name ∈ d.nonterminals.getD [] ∨
    name ∈ d.terminals.getD [] ∨ name ∈ start :: namesOf d.rules := by
  rw [mentioned, List.mem_append, List.mem_append, or_assoc]

theorem declaredTable_eq_internAll : d.declaredTable start =
    SymbolTable.internAll ∅ (d.nonterminals.getD []) .nonterminal >>= fun t =>
      t.internAll (d.terminals.getD []) .terminal >>= fun t =>
        t.internAll (d.heads start) .nonterminal := by
  unfold declaredTable heads
  cases d.nonterminals <;> rfl

theorem mem_entries_of_declaredTable (h : d.declaredTable start = .ok t) :
    (name, kind) ∈ t.entries.entries ↔
      (name ∈ d.nonterminals.getD [] ∨ name ∈ d.heads start) ∧ kind = .nonterminal ∨
        name ∈ d.terminals.getD [] ∧ kind = .terminal := by
  rw [declaredTable_eq_internAll] at h
  obtain ⟨t₁, h₁, h⟩ := bind_eq_ok_iff.1 h
  obtain ⟨t₂, h₂, h⟩ := bind_eq_ok_iff.1 h
  have hempty : (name, kind) ∉ (∅ : SymbolTable).entries.entries := nofun
  rw [SymbolTable.mem_entries_internAll h, SymbolTable.mem_entries_internAll h₂,
    SymbolTable.mem_entries_internAll h₁, or_iff_right hempty, or_right_comm, ← or_and_right]

theorem exists_declaredTable_iff : (∃ t, d.declaredTable start = .ok t) ↔
    (∀ name ∈ d.nonterminals.getD [], validName name) ∧
      (∀ name ∈ d.terminals.getD [], validName name ∧ name ∉ d.nonterminals.getD []) ∧
        ∀ name ∈ d.heads start, validName name ∧ name ∉ d.terminals.getD [] := by
  rw [declaredTable_eq_internAll]
  have hempty : ∀ {name kind}, (name, kind) ∉ (∅ : SymbolTable).entries.entries := nofun
  refine exists_bind_eq_ok_iff ?_ fun t₁ h₁ => exists_bind_eq_ok_iff ?_ fun t₂ h₂ => ?_
  · simp [SymbolTable.exists_internAll_iff, SymbolTable.Admits, hempty]
  · simp [SymbolTable.exists_internAll_iff, SymbolTable.Admits, hempty,
      SymbolTable.mem_entries_internAll h₁]
  · rw [SymbolTable.exists_internAll_iff]
    refine forall₂_congr fun name _ => and_congr_right fun _ => ?_
    simp only [SymbolTable.mem_entries_internAll h₂, SymbolTable.mem_entries_internAll h₁, hempty,
      false_or]
    constructor
    · exact fun h hname => nomatch h .terminal (Or.inr ⟨hname, rfl⟩)
    · rintro hnot k (⟨-, hk⟩ | ⟨hname, -⟩)
      · exact hk
      · exact absurd hname hnot

theorem mem_names_of_declaredTable (h : d.declaredTable start = .ok t) : name ∈ t.names ↔
    name ∈ d.nonterminals.getD [] ∨ name ∈ d.terminals.getD [] ∨ name ∈ d.heads start := by
  simp only [SymbolTable.mem_names_iff_get?, OrderedMap.get?_eq_some_iff,
    mem_entries_of_declaredTable h]
  constructor
  · rintro ⟨kind, ⟨hname | hname, -⟩ | ⟨hname, -⟩⟩
    · exact Or.inl hname
    · exact Or.inr (Or.inr hname)
    · exact Or.inr (Or.inl hname)
  · rintro (hname | hname | hname)
    · exact ⟨_, Or.inl ⟨Or.inl hname, rfl⟩⟩
    · exact ⟨_, Or.inr ⟨hname, rfl⟩⟩
    · exact ⟨_, Or.inl ⟨Or.inr hname, rfl⟩⟩

theorem kindIn_declaredTable (h : d.declaredTable start = .ok t) :
    d.vocabulary.kindIn t name = d.assignedKind start name := by
  have hget : ∀ {kind}, t.entries.get? name = some kind ↔ _ := fun {kind} =>
    OrderedMap.get?_eq_some_iff.trans (mem_entries_of_declaredTable h)
  unfold Vocabulary.kindIn assignedKind
  split
  · next hname => rw [hget.2 (Or.inl ⟨Or.inl hname, rfl⟩), Option.getD_some]
  · split
    · next hname => rw [hget.2 (Or.inr ⟨hname, rfl⟩), Option.getD_some]
    · split
      · next hname => rw [hget.2 (Or.inl ⟨Or.inr hname, rfl⟩), Option.getD_some]
      · next hN hT hheads =>
        have hnone : t.entries.get? name = none := by
          refine Option.eq_none_iff_forall_ne_some.2 fun kind hkind => ?_
          have hmem := (mem_names_of_declaredTable h).1
            (SymbolTable.mem_names_iff_get?.2 ⟨_, hkind⟩)
          exact hmem.elim hN (Or.elim · hT hheads)
        rw [hnone, Option.getD_none]

theorem closed_vocabulary : d.vocabulary.closed kind = (d.declared kind).isSome := by
  cases kind <;> rfl

theorem mem_getD_of_declared {names : List String} (h : d.declared kind = some names)
    (hname : name ∈ names) : name ∈ d.nonterminals.getD [] ∨ name ∈ d.terminals.getD [] := by
  cases kind with
  | nonterminal => exact Or.inl ((show d.nonterminals = some names from h) ▸ hname)
  | terminal => exact Or.inr ((show d.terminals = some names from h) ▸ hname)

theorem mem_of_declared {names : List String} (hname : name ∈ d.nonterminals.getD [] ∨
      name ∈ d.terminals.getD [] ∨ name ∈ d.heads start)
    (hnames : d.declared (d.assignedKind start name) = some names) : name ∈ names := by
  unfold assignedKind at hnames
  split at hnames
  · next hN => rwa [show d.nonterminals = some names from hnames] at hN
  · next hN =>
    split at hnames
    · next hT => rwa [show d.terminals = some names from hnames] at hT
    · next hT =>
      have hheads := (hname.resolve_left hN).resolve_left hT
      rw [if_pos hheads] at hnames
      cases (mem_heads.1 hheads).1.symm.trans hnames

theorem usable_declaredTable (h : d.declaredTable start = .ok t) :
    d.vocabulary.Usable t name ↔ d.Allows start name := by
  unfold Vocabulary.Usable Allows
  rw [mem_names_of_declaredTable h]
  by_cases hname : name ∈ d.nonterminals.getD [] ∨ name ∈ d.terminals.getD [] ∨
      name ∈ d.heads start
  · refine iff_of_true (Or.inl hname) ⟨?_, fun names => mem_of_declared hname⟩
    exact valid_of_declaredTable h name ((mem_names_of_declaredTable h).2 hname)
  · rw [or_iff_right hname]
    refine and_congr_right fun _ => ?_
    have hkind : d.assignedKind start name = d.vocabulary.kindOf name := by
      simp only [not_or] at hname
      rw [assignedKind, if_neg hname.1, if_neg hname.2.1, if_neg hname.2.2]
    rw [hkind, closed_vocabulary, Option.isSome_eq_false_iff, Option.isNone_iff_eq_none]
    constructor
    · intro hnone names hnames
      cases hnone.symm.trans hnames
    · intro hall
      refine Option.eq_none_iff_forall_ne_some.2 fun names hnames => hname ?_
      exact (mem_getD_of_declared hnames (hall names hnames)).imp_right Or.inl

theorem mem_sets_withDeclared {s : SymbolId} (hs : s < g.symbols.size) :
    s ∈ (withDeclared g).nonterminals ∨ s ∈ (withDeclared g).terminals := by
  have hmem : s ∈ g.symbols.ids := List.mem_range.2 hs
  by_cases hkind : g.symbols.isTerminal s
  · exact Or.inr (OrderedSet.mem_insertAll.2 (Or.inr (List.mem_filter.2 ⟨hmem, hkind⟩)))
  · have hkind := SymbolTable.isNonterminal_of_lt hs hkind
    exact Or.inl (OrderedSet.mem_insertAll.2 (Or.inr (List.mem_filter.2 ⟨hmem, hkind⟩)))

section Success

variable (hstart : d.start = some start)
include hstart

theorem startName?_of_start : d.startName? = some start := by
  rw [startName?, hstart]
  rfl

theorem exists_build_iff_allows : (∃ g, d.build = .ok g) ↔
    (∃ t, d.declaredTable start = .ok t) ∧
      (d.Allows start start ∧ d.assignedKind start start = .nonterminal) ∧
        ∀ line ∈ d.rules, (d.Allows start line.1 ∧ d.assignedKind start line.1 = .nonterminal) ∧
          ∀ name ∈ line.2, d.Allows start name := by
  unfold build
  rw [startName?_of_start hstart]
  refine exists_bind_eq_ok_iff Iff.rfl fun t₁ h₁ => ?_
  simp only [← usable_declaredTable h₁, ← kindIn_declaredTable h₁]
  refine exists_bind_eq_ok_iff Vocabulary.exists_resolveNonterminal_iff ?_
  rintro ⟨id, t₂⟩ h₂
  have hkeeps := Vocabulary.keeps_of_resolveNonterminal h₂
  simp only [← hkeeps.usable_iff, ← hkeeps.kindIn_eq]
  exact exists_bind_pure_eq_ok_iff.trans Vocabulary.exists_resolveRules_iff

/-- Whether a definition makes a grammar does not depend on the order of its productions. -/
theorem exists_build_iff : (∃ g, d.build = .ok g) ↔ d.Buildable start := by
  rw [exists_build_iff_allows hstart, exists_declaredTable_iff]
  constructor
  · rintro ⟨⟨hN, hT, -⟩, ⟨hallows, hkind⟩, hlines⟩
    refine ⟨fun name hname => hname.elim (hN name) fun hname => (hT name hname).1,
      fun name hname => (hT name hname).2, ?_, ?_⟩
    · refine List.forall_mem_cons.2 ⟨hallows, fun name hname => ?_⟩
      obtain ⟨line, hline, hname⟩ := mem_namesOf.1 hname
      obtain ⟨⟨hlhs, -⟩, hrhs⟩ := hlines line hline
      exact (List.forall_mem_cons.2 ⟨hlhs, hrhs⟩) name hname
    · refine List.forall_mem_cons.2 ⟨hkind, fun name hname => ?_⟩
      obtain ⟨line, hline, rfl⟩ := List.mem_map.1 hname
      exact (hlines line hline).1.2
  · intro h
    obtain ⟨hallows, hrules⟩ := List.forall_mem_cons.1 h.allows
    obtain ⟨hkind, hlefts⟩ := List.forall_mem_cons.1 h.left
    refine ⟨⟨fun name hname => h.valid name (Or.inl hname),
      fun name hname => ⟨h.valid name (Or.inr hname), h.disjoint name hname⟩,
      fun name hname => ?_⟩, ⟨hallows, hkind⟩, fun line hline => ⟨⟨?_, ?_⟩, fun name hname => ?_⟩⟩
    · obtain ⟨hnone, hname⟩ := mem_heads.1 hname
      refine ⟨?_, fun hT => ?_⟩
      · rcases List.mem_cons.1 hname with rfl | hname
        · exact hallows.1
        · exact (hrules name (mem_namesOf_of_mem_map_fst hname)).1
      · have hleft := h.left name hname
        rw [assignedKind, hnone, if_neg (by exact List.not_mem_nil), if_pos hT] at hleft
        cases hleft
    · exact hrules _ (mem_namesOf.2 ⟨line, hline, List.mem_cons_self⟩)
    · exact hlefts _ (List.mem_map_of_mem hline)
    · exact hrules _ (mem_namesOf.2 ⟨line, hline, List.mem_cons_of_mem _ hname⟩)

end Success

/-- On a grammar that can be made, the kind that a name gets is told by the definition. -/
theorem assignedKind_eq_nonterminal_iff (h : d.Buildable start) (hname : name ∈ d.mentioned start) :
    d.assignedKind start name = .nonterminal ↔ d.Designates start name := by
  by_cases hN : name ∈ d.nonterminals.getD []
  · exact iff_of_true (if_pos hN) (Or.inl hN)
  · rw [Designates, or_iff_right hN]
    by_cases hT : name ∈ d.terminals.getD []
    · rw [assignedKind, if_neg hN, if_pos hT]
      exact iff_of_false nofun fun h => h.2.1 hT
    · cases hnonterminals : d.nonterminals with
      | some names =>
        refine iff_of_false (fun hkind => hN ?_) fun h => nomatch h.1
        have hmem := ((mem_mentioned.1 hname).resolve_left hN).resolve_left hT
        rw [hnonterminals]
        refine (h.allows name hmem).2 names ?_
        rw [hkind]
        exact hnonterminals
      | none =>
        rw [assignedKind, if_neg hN, if_neg hT, kindOf_vocabulary, and_iff_right rfl,
          and_iff_right hT, ← SymbolKind.infer_eq_nonterminal_iff]
        simp only [mem_heads, hnonterminals, true_and, List.mem_cons]
        by_cases hstart : name = start
        · simp [hstart]
        · by_cases hleft : name ∈ d.rules.map Prod.fst
          · simp only [hleft, or_true, if_true, true_or]
          · simp only [hstart, hleft, false_or, if_false]

end GrammarDefinition

namespace Grammar

open GrammarDefinition

variable {d d' : GrammarDefinition} {start name : String} {g g' : Grammar} {s : SymbolId}

/-- A grammar with the names of a definition, all of them in its sets, and its productions. -/
structure Follows (g : Grammar) (d : GrammarDefinition) (start : String) : Prop where
  consistent : g.Consistent
  start_eq : g.startName = start
  productions : ∃ rules, g.productions = .ofRules rules ∧
    d.rules = rules.map fun (lhs, rhs) => (g.name lhs, g.spell rhs)
  kind : ∀ name kind, g.kindNamed? name = some kind ↔
    name ∈ d.mentioned start ∧ kind = d.assignedKind start name
  mem_sets : ∀ s < g.symbols.size, s ∈ g.nonterminals ∨ s ∈ g.terminals

/-- A grammar whose names are of the kinds that a definition designates, and where each nonterminal
has the right-hand sides that the definition gives to it, in their order. -/
structure Resolves (g : Grammar) (d : GrammarDefinition) (start : String) : Prop where
  start_eq : g.startName = start
  kind : ∀ name kind, g.kindNamed? name = some kind ↔
    name ∈ d.mentioned start ∧ (kind = .nonterminal ↔ d.Designates start name)
  nonterminals : ∀ name, (∃ s ∈ g.nonterminals, g.name s = name) ↔
    name ∈ d.mentioned start ∧ d.Designates start name
  terminals : ∀ name, (∃ s ∈ g.terminals, g.name s = name) ↔
    name ∈ d.mentioned start ∧ ¬d.Designates start name
  alternatives : ∀ s ∈ g.nonterminals,
    (g.alternatives s).map g.spell = partsOf (g.name s) d.rules

namespace Follows

variable (h : g.Follows d start)
include h

theorem mem_nonterminals_iff :
    (∃ s ∈ g.nonterminals, g.name s = name) ↔ g.kindNamed? name = some .nonterminal :=
  h.consistent.exists_mem_nonterminals_iff h.mem_sets

theorem mem_terminals_iff :
    (∃ s ∈ g.terminals, g.name s = name) ↔ g.kindNamed? name = some .terminal :=
  h.consistent.exists_mem_terminals_iff h.mem_sets

theorem map_spell_alternatives (hs : s < g.symbols.size) :
    (g.alternatives s).map g.spell = partsOf (g.name s) d.rules := by
  obtain ⟨rules, hproductions, hrules⟩ := h.productions
  rw [hrules, Grammar.alternatives, hproductions, Productions.alternatives_ofRules]
  refine (partsOf_map fun rule hrule hname => ?_).symm
  refine SymbolTable.name_injective ?_ hs hname
  have hrhs : rule.2 ∈ g.alternatives rule.1 := by
    rw [Grammar.alternatives, hproductions]
    exact Productions.mem_alternatives_ofRules_iff.2 hrule
  exact h.consistent.lhs_lt hrhs

theorem resolves (hbuildable : d.Buildable start) : g.Resolves d start where
  start_eq := h.start_eq
  kind name kind := by
    rw [h.kind]
    refine and_congr_right fun hname => ?_
    rw [← assignedKind_eq_nonterminal_iff hbuildable hname]
    cases kind <;> cases d.assignedKind start name <;> simp
  nonterminals name := by
    rw [h.mem_nonterminals_iff, h.kind]
    refine and_congr_right fun hname => ?_
    rw [← assignedKind_eq_nonterminal_iff hbuildable hname, eq_comm]
  terminals name := by
    rw [h.mem_terminals_iff, h.kind]
    refine and_congr_right fun hname => ?_
    rw [← assignedKind_eq_nonterminal_iff hbuildable hname]
    cases d.assignedKind start name <;> simp
  alternatives s hs :=
    h.map_spell_alternatives (SymbolTable.lt_size_of_isNonterminal (h.consistent.nonterminal s hs))

end Follows

theorem follows_of_build (hstart : d.start = some start) (h : d.build = .ok g) :
    g.Follows d start := by
  have hconsistent := consistent_of_build h
  unfold build at h
  rw [startName?_of_start hstart] at h
  obtain ⟨t₁, h₁, h⟩ := bind_eq_ok_iff.1 h
  obtain ⟨⟨id, t₂⟩, h₂, h⟩ := bind_eq_ok_iff.1 h
  obtain ⟨⟨rules, t₃⟩, h₃, h⟩ := bind_eq_ok_iff.1 h
  have hg := pure_eq_ok_iff.1 h
  have hsymbols : g.symbols = t₃ := by rw [← hg]; split <;> rfl
  have hnumber : g.start = id := by rw [← hg]; split <;> rfl
  have hproductions : g.productions = .ofRules rules := by rw [← hg]; split <;> rfl
  subst hsymbols hnumber
  obtain ⟨henters₂, hid⟩ := Vocabulary.enters_of_resolveNonterminal h₂
  obtain ⟨henters₃, hrules⟩ := Vocabulary.enters_of_resolveRules h₃
  have hkeeps := (Vocabulary.keeps_of_resolveNonterminal h₂).trans
    (Vocabulary.keeps_of_resolveRules h₃)
  have hstartName : g.startName = start :=
    (Vocabulary.eq_name_of_lookup? (henters₃.ext.lookup?_eq hid)).symm
  have hlines := Vocabulary.eq_map_of_reads hrules
  have hnames : ∀ name, name ∈ g.symbols.names ↔ name ∈ d.mentioned start := by
    intro name
    rw [henters₃.mem_names, henters₂.mem_names, mem_names_of_declaredTable h₁, mem_mentioned,
      List.mem_singleton, List.mem_cons, or_assoc, or_assoc, or_assoc]
    refine or_congr_right (or_congr_right (or_iff_right_of_imp fun hname => ?_))
    exact (List.mem_cons.1 (mem_heads.1 hname).2).imp_right mem_namesOf_of_mem_map_fst
  refine ⟨hconsistent, hstartName, ⟨rules, hproductions, hlines⟩, fun name kind => ?_,
    fun s hs => ?_⟩
  · rw [← hnames, ← kindIn_declaredTable h₁, ← hkeeps.kindIn_eq]
    exact Vocabulary.get?_eq_some_iff_kindIn
  · by_cases hdeclared : (d.nonterminals.isSome || d.terminals.isSome) = true
    · rw [if_pos hdeclared] at hg
      rw [← hg]
      exact mem_sets_withDeclared hs
    · simp only [Bool.or_eq_true, not_or, Option.not_isSome_iff_eq_none] at hdeclared
      have hname := (hnames (g.name s)).1
        (SymbolTable.mem_names_of_name? (SymbolTable.name?_eq_some_name hs))
      rw [mem_mentioned, hdeclared.1, hdeclared.2, Option.getD_none, or_iff_right List.not_mem_nil,
        or_iff_right List.not_mem_nil, List.mem_cons] at hname
      rcases hname with hname | hname
      · rw [SymbolTable.name_injective hs hconsistent.start_lt (hname.trans hstartName.symm)]
        exact Or.inl hconsistent.start_mem
      · obtain ⟨line, hline, hname⟩ := mem_namesOf.1 hname
        rw [hlines] at hline
        have hline := (mem_lines_iff_of_ofRules hproductions).2 hline
        obtain ⟨s', hs', hsame, hmem⟩ :=
          hconsistent.exists_of_mem_namesOf (mem_namesOf.2 ⟨line, hline, hname⟩)
        exact SymbolTable.name_injective hs' hs hsame ▸ hmem

end Grammar

namespace GrammarDefinition

variable {d d' : GrammarDefinition} {start name : String} {kind : SymbolKind} {g g' : Grammar}

section Options

variable {α : Type u} {o o' : Option (List α)} {x : α}
  (h : o.map (fun xs => {x | x ∈ xs}) = o'.map fun xs => {x | x ∈ xs})
include h

theorem eq_none_iff_of_map_eq : o = none ↔ o' = none := by
  rw [← Option.map_eq_none_iff, h, Option.map_eq_none_iff]

theorem mem_getD_iff_of_map_eq : x ∈ o.getD [] ↔ x ∈ o'.getD [] := by
  cases o with
  | none => rw [(eq_none_iff_of_map_eq h).1 rfl]
  | some xs =>
    cases o' with
    | none => cases h
    | some xs' => exact Set.ext_iff.1 (Option.some.inj h) x

theorem forall_mem_of_map_eq (hx : ∀ xs, o = some xs → x ∈ xs) : ∀ xs, o' = some xs → x ∈ xs := by
  rintro xs' rfl
  cases o with
  | none => cases h
  | some xs => exact (Set.ext_iff.1 (Option.some.inj h) x).1 (hx xs rfl)

end Options

namespace SameSets

theorem symm (h : d.SameSets d') : d'.SameSets d :=
  ⟨h.start.symm, h.nonterminals.symm, h.terminals.symm, fun line => (h.rules line).symm⟩

variable (h : d.SameSets d')
include h

theorem mem_lefts_iff : name ∈ d.rules.map Prod.fst ↔ name ∈ d'.rules.map Prod.fst := by
  simp only [List.mem_map, h.rules]

theorem mem_namesOf_iff : name ∈ namesOf d.rules ↔ name ∈ namesOf d'.rules := by
  simp only [mem_namesOf, h.rules]

theorem mem_mentioned_iff : name ∈ d.mentioned start ↔ name ∈ d'.mentioned start := by
  rw [mem_mentioned, mem_mentioned, mem_getD_iff_of_map_eq h.nonterminals,
    mem_getD_iff_of_map_eq h.terminals, List.mem_cons, List.mem_cons, h.mem_namesOf_iff]

theorem assignedKind_eq : d.assignedKind start name = d'.assignedKind start name := by
  simp only [assignedKind, mem_heads, kindOf_vocabulary, List.mem_cons, h.mem_lefts_iff,
    mem_getD_iff_of_map_eq h.nonterminals, mem_getD_iff_of_map_eq h.terminals,
    eq_none_iff_of_map_eq h.nonterminals]

theorem allows (hname : d.Allows start name) : d'.Allows start name := by
  have hdeclared : ∀ kind, (d.declared kind).map (fun names => {name | name ∈ names}) =
      (d'.declared kind).map fun names => {name | name ∈ names} := by
    rintro (_ | _)
    · exact h.terminals
    · exact h.nonterminals
  refine ⟨hname.1, ?_⟩
  rw [← h.assignedKind_eq]
  exact forall_mem_of_map_eq (hdeclared _) hname.2

theorem buildable (hd : d.Buildable start) : d'.Buildable start where
  valid name hname := hd.valid name (by
    rwa [mem_getD_iff_of_map_eq h.nonterminals, mem_getD_iff_of_map_eq h.terminals])
  disjoint name hT hN := hd.disjoint name ((mem_getD_iff_of_map_eq h.terminals).2 hT)
    ((mem_getD_iff_of_map_eq h.nonterminals).2 hN)
  allows name hname := h.allows (hd.allows name (by
    rwa [List.mem_cons, h.mem_namesOf_iff, ← List.mem_cons]))
  left name hname := h.assignedKind_eq ▸ hd.left name (by
    rwa [List.mem_cons, h.mem_lefts_iff, ← List.mem_cons])

end SameSets

/-- Whether a definition with a start symbol makes a grammar, and which names are nonterminals and
terminals of it, does not depend on the order of the productions; each nonterminal has its
right-hand sides in their order. -/
theorem build_spec (hstart : d.start = some start) :
    ((∃ g, d.build = .ok g) ↔ d.Buildable start) ∧
      (∀ g, d.build = .ok g → g.Resolves d start) ∧
        ∀ d', d.SameSets d' → ((∃ g, d.build = .ok g) ↔ ∃ g', d'.build = .ok g') ∧
          ∀ g g', d.build = .ok g → d'.build = .ok g' →
            (∀ name, g.kindNamed? name = g'.kindNamed? name) ∧
              (∀ name, (∃ s ∈ g.nonterminals, g.name s = name) ↔
                ∃ s ∈ g'.nonterminals, g'.name s = name) ∧
                ∀ name, (∃ s ∈ g.terminals, g.name s = name) ↔
                  ∃ s ∈ g'.terminals, g'.name s = name := by
  have hfollows := fun g => Grammar.follows_of_build (g := g) hstart
  refine ⟨exists_build_iff hstart, fun g hg => ?_, fun d' h => ⟨?_, fun g g' hg hg' => ?_⟩⟩
  · exact (hfollows g hg).resolves ((exists_build_iff hstart).1 ⟨g, hg⟩)
  · rw [exists_build_iff hstart, exists_build_iff (h.start.symm.trans hstart)]
    exact ⟨h.buildable, h.symm.buildable⟩
  · have hg := hfollows g hg
    have hg' := Grammar.follows_of_build (h.start.symm.trans hstart) hg'
    have hkind : ∀ name, g.kindNamed? name = g'.kindNamed? name := fun name => by
      refine Option.ext fun kind => ?_
      rw [hg.kind, hg'.kind, h.mem_mentioned_iff, h.assignedKind_eq]
    refine ⟨hkind, fun name => ?_, fun name => ?_⟩
    · rw [hg.mem_nonterminals_iff, hg'.mem_nonterminals_iff, hkind]
    · rw [hg.mem_terminals_iff, hg'.mem_terminals_iff, hkind]

/-- Terminals are declared, and one production is given twice. -/
def repeating : GrammarDefinition where
  start := some "S"
  terminals := some ["a", "b", "c"]
  rules := [("S", ["a", "Tail"]), ("tail", ["b"]), ("S", []), ("S", ["a", "Tail"])]

/-- The productions of `repeating` in another order, once each. -/
def reordered : GrammarDefinition where
  start := some "S"
  terminals := some ["c", "b", "a", "b"]
  rules := [("tail", ["b"]), ("S", []), ("S", ["a", "Tail"])]

theorem sameSets_reordered : repeating.SameSets reordered where
  start := rfl
  nonterminals := rfl
  terminals := congrArg some (Set.ext fun name => by
    simp only [Set.mem_ofPred_eq, List.mem_cons, List.not_mem_nil, or_false]
    tauto)
  rules line := by
    simp only [repeating, reordered, List.mem_cons, List.not_mem_nil, or_false]
    tauto

theorem map_build_repeating : repeating.build.map Grammar.namedProductions =
    .ok [("S", [["a", "Tail"], [], ["a", "Tail"]]), ("tail", [["b"]])] := by
  decide +kernel

theorem map_build_reordered : reordered.build.map Grammar.namedProductions =
    .ok [("tail", [["b"]]), ("S", [[], ["a", "Tail"]])] := by
  decide +kernel

theorem build_spec_reordered : ∃ g g', repeating.build = .ok g ∧ reordered.build = .ok g' ∧
    g.Resolves repeating "S" ∧ g'.Resolves reordered "S" ∧
      (∀ name, g.kindNamed? name = g'.kindNamed? name) ∧
        (∃ s ∈ g'.nonterminals, g'.name s = "Tail") ∧ ∃ s ∈ g'.terminals, g'.name s = "c" := by
  obtain ⟨g, hg, -⟩ := map_eq_ok_iff.1 map_build_repeating
  obtain ⟨g', hg', -⟩ := map_eq_ok_iff.1 map_build_reordered
  obtain ⟨-, hresolves, hsame⟩ := build_spec (d := repeating) rfl
  obtain ⟨-, hresolves', -⟩ := build_spec (d := reordered) rfl
  obtain ⟨hkind, hnonterminals, hterminals⟩ := (hsame reordered sameSets_reordered).2 g g' hg hg'
  refine ⟨g, g', hg, hg', hresolves g hg, hresolves' g' hg', hkind, ?_, ?_⟩
  · refine (hnonterminals _).1 (((hresolves g hg).nonterminals _).2 ⟨by decide, Or.inr ?_⟩)
    exact ⟨rfl, by decide, Or.inr (Or.inr ⟨'T', rfl, by decide⟩)⟩
  · refine (hterminals _).1 (((hresolves g hg).terminals _).2 ⟨by decide, ?_⟩)
    rintro (hname | ⟨-, hname, -⟩)
    · cases hname
    · exact hname (by decide)

end GrammarDefinition
end Chomsky
