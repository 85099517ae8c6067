import Chomsky.Proofs.Automaton.Definition
import Chomsky.Proofs.Grammar.Definition
import Chomsky.RightLinear.Generator
import Mathlib.Data.List.Basic

/-! # The grammar of an automaton

The nonterminals have the numbers of the states, and the terminals those of the alphabet after them.
If no state has the name of a symbol, the names can be entered, and the productions are those of the
transitions, whatever the names are (`build_eq_ok`). The alternatives of a state are therefore its
transitions (`GrammarOf`).
-/

namespace Chomsky

namespace Grammar

theorem terminals_ofProductions {t : SymbolTable} {start : SymbolId} {ps : Productions} :
    (ofProductions t start ps).terminals =
      .ofList (ps.rules.flatMap fun rule => rule.2.filter t.isTerminal) := by
  refine congrArg OrderedSet.ofList ?_
  rw [Productions.rules, List.flatMap_assoc]
  refine congrArg (List.flatMap · ps.entries) (funext fun entry => ?_)
  rw [List.flatMap_map]
  exact List.filter_flatten

end Grammar

namespace Automaton

variable {a : Automaton} {g : Grammar} {names : List String} {q r : StateId} {i : SymbolIndex}
  {lhs : SymbolId} {rhs : Form} {t : SymbolTable}

/-- The alternatives of a state as a nonterminal: a symbol and a target, the symbol alone if the
target accepts, and nothing for an accepting start. -/
inductive Rule (a : Automaton) : StateId → Form → Prop
  | step {q r : StateId} {i : SymbolIndex} (h : r ∈ a.targets q i) :
      Rule a q [a.states.size + i, r]
  | last {q r : StateId} {i : SymbolIndex} (h : r ∈ a.targets q i) (hr : r ∈ a.accept) :
      Rule a q [a.states.size + i]
  | nil (h : a.start ∈ a.accept) : Rule a a.start []

def edgeProductions (a : Automaton) (edge : StateId × SymbolIndex × StateId) :
    List (SymbolId × Form) :=
  let (q, i, r) := edge
  (q, [a.states.size + i, r]) :: if r ∈ a.accept then [(q, [a.states.size + i])] else []

def numberedRules (a : Automaton) : List (SymbolId × Form) :=
  distinct <| a.edges.flatMap a.edgeProductions ++
    if a.start ∈ a.accept then [(a.start, [])] else []

theorem mem_numberedRules_iff : (lhs, rhs) ∈ a.numberedRules ↔ a.Rule lhs rhs := by
  rw [numberedRules, mem_distinct, List.mem_append, List.mem_flatMap]
  constructor
  · rintro (⟨⟨q, i, r⟩, hedge, hmem⟩ | hmem)
    · have hr := mem_edges_iff.1 hedge
      rcases List.mem_cons.1 hmem with heq | hmem
      · cases heq
        exact .step hr
      · split at hmem
        · next haccept =>
          cases List.mem_singleton.1 hmem
          exact .last hr haccept
        · cases hmem
    · split at hmem
      · next haccept =>
        cases List.mem_singleton.1 hmem
        exact .nil haccept
      · cases hmem
  · intro h
    cases h with
    | step hr => exact Or.inl ⟨_, mem_edges_iff.2 hr, List.mem_cons_self⟩
    | last hr haccept =>
      exact Or.inl ⟨_, mem_edges_iff.2 hr, List.mem_cons_of_mem _ (by simp [haccept])⟩
    | nil haccept => exact Or.inr (by simp [haccept])

section Table

variable (ht : t.Lists names a.alphabet.toList) (hlength : names.length = a.states.size)
include ht hlength

theorem isNonterminal_iff_lt : t.isNonterminal q ↔ q < a.states.size := by
  rw [ht.isNonterminal_iff, hlength]

theorem isTerminal_add_iff : t.isTerminal (a.states.size + i) ↔ i < a.alphabet.size := by
  rw [ht.isTerminal_iff, hlength, OrderedSet.length_toList]
  constructor
  · rintro ⟨j, hj, heq⟩
    exact Nat.add_left_cancel heq ▸ hj
  · exact fun hi => ⟨i, hi, rfl⟩

theorem name_state (hq : q < a.states.size) : t.name q = names.toArray.getD q "" := by
  rw [SymbolTable.name, ht.name?_nonterminal (hlength ▸ hq)]
  simp

theorem name?_symbol : t.name? (a.states.size + i) = a.symbolName? i := by
  rw [← hlength, ht.name?_terminal, OrderedSet.getElem?_toList, symbolName?]

theorem name_symbol : t.name (a.states.size + i) = a.symbolName i := by
  rw [SymbolTable.name, name?_symbol ht hlength, symbolName]

variable (ha : a.WellFormed)
include ha

theorem Rule.isNonterminal_lhs (h : a.Rule lhs rhs) : t.isNonterminal lhs := by
  rw [isNonterminal_iff_lt ht hlength]
  cases h with
  | step hr => exact ha.source_lt_of_mem_targets hr
  | last hr _ => exact ha.source_lt_of_mem_targets hr
  | nil _ => exact ha.start_lt

theorem Rule.rightLinear (h : a.Rule lhs rhs) : rhs = [] ∨ (∃ b, rhs = [b] ∧ t.isTerminal b) ∨
    ∃ b m, rhs = [b, m] ∧ t.isTerminal b ∧ t.isNonterminal m := by
  have hterminal : ∀ {q i r}, r ∈ a.targets q i → t.isTerminal (a.states.size + i) := fun hr =>
    (isTerminal_add_iff ht hlength).2 (ha.symbol_lt_of_mem_targets hr)
  cases h with
  | step hr =>
    exact Or.inr (Or.inr ⟨_, _, rfl, hterminal hr,
      (isNonterminal_iff_lt ht hlength).2 (ha.lt_of_mem_targets hr)⟩)
  | last hr _ => exact Or.inr (Or.inl ⟨_, rfl, hterminal hr⟩)
  | nil _ => exact Or.inl rfl

theorem Rule.lt_size (h : a.Rule lhs rhs) : ∀ s ∈ rhs, s < t.size := by
  rcases h.rightLinear ht hlength ha with rfl | ⟨b, rfl, hb⟩ | ⟨b, m, rfl, hb, hm⟩
  · exact nofun
  · simpa using SymbolTable.lt_size_of_isTerminal hb
  · simpa using ⟨SymbolTable.lt_size_of_isTerminal hb, SymbolTable.lt_size_of_isNonterminal hm⟩

theorem numberedRules_over :
    ∀ rule ∈ a.numberedRules, t.isNonterminal rule.1 ∧ ∀ s ∈ rule.2, s < t.size :=
  fun _ hrule =>
    have hrule := mem_numberedRules_iff.1 hrule
    ⟨hrule.isNonterminal_lhs ht hlength ha, hrule.lt_size ht hlength ha⟩

theorem edgeRules_eq {edge : StateId × SymbolIndex × StateId} (hedge : edge ∈ a.edges) :
    a.edgeRules (fun q => names.toArray.getD q "") edge =
      (a.edgeProductions edge).map fun rule => (t.name rule.1, rule.2.map t.name) := by
  obtain ⟨q, i, r⟩ := edge
  obtain ⟨hq, -, hr⟩ := ha.lt_of_mem_edges _ hedge
  simp only [edgeRules, edgeProductions, List.map_cons, apply_ite (List.map _), List.map_nil,
    name_state ht hlength hq, name_state ht hlength hr, name_symbol ht hlength]

theorem namedRules_eq : a.namedRules (fun q => names.toArray.getD q "") =
    a.numberedRules.map fun rule => (t.name rule.1, rule.2.map t.name) := by
  have hraw : (a.edges.flatMap (a.edgeRules fun q => names.toArray.getD q "") ++
      if a.start ∈ a.accept then [(names.toArray.getD a.start "", [])] else []) =
        (a.edges.flatMap a.edgeProductions ++
          if a.start ∈ a.accept then [(a.start, [])] else []).map
            fun rule : SymbolId × Form => (t.name rule.1, rule.2.map t.name) := by
    rw [List.map_append, List.map_flatMap, apply_ite (List.map _), List.map_cons, List.map_nil,
      List.map_nil, name_state ht hlength ha.start_lt,
      List.flatMap_congr fun edge hedge => edgeRules_eq ht hlength ha hedge]
  rw [namedRules, hraw]
  have hreads : ∀ rule : SymbolId × Form, rule ∈ a.edges.flatMap a.edgeProductions ++
      (if a.start ∈ a.accept then [(a.start, [])] else []) →
        Vocabulary.Reads t (t.name rule.1, rule.2.map t.name) rule := fun rule hrule =>
    have hover := numberedRules_over ht hlength ha rule (mem_distinct.2 hrule)
    Vocabulary.reads_name (SymbolTable.lt_size_of_isNonterminal hover.1) hover.2
  refine OrderedSet.toList_ofList_map fun rule hrule rule' hrule' heq => ?_
  exact (hreads rule hrule).unique (heq ▸ hreads rule' hrule')

theorem build_eq_ok
    (hdeclared :
      (a.grammarDefinition names).declaredTable (names.toArray.getD a.start "") = .ok t) :
    (a.grammarDefinition names).build = .ok (GrammarDefinition.withDeclared
      (.ofProductions t a.start (.ofRules a.numberedRules))) := by
  have hstart : t.isNonterminal a.start := (isNonterminal_iff_lt ht hlength).2 ha.start_lt
  have hlookup := SymbolTable.lookup?_name (SymbolTable.lt_size_of_isNonterminal hstart)
  rw [name_state ht hlength ha.start_lt] at hlookup
  have hrules : ∀ v : Vocabulary, v.resolveRules t (a.namedRules fun q => names.toArray.getD q "") =
      .ok (a.numberedRules, t) := fun v => by
    rw [namedRules_eq ht hlength ha]
    exact Vocabulary.resolveRules_known (numberedRules_over ht hlength ha)
  change ((a.grammarDefinition names).declaredTable (names.toArray.getD a.start "") >>= _) = _
  rw [hdeclared]
  change ((a.grammarDefinition names).vocabulary.resolveNonterminal t
    (names.toArray.getD a.start "") >>= _) = _
  rw [Vocabulary.resolveNonterminal_known hlookup hstart]
  change ((a.grammarDefinition names).vocabulary.resolveRules t
    (a.namedRules fun q => names.toArray.getD q "") >>= _) = _
  rw [hrules]
  rfl

end Table

/-- What the grammar of an automaton consists of, with given names for the states. -/
structure GrammarOf (a : Automaton) (names : List String) (g : Grammar) : Prop where
  consistent : g.Consistent
  length_eq : names.length = a.states.size
  lists : g.symbols.Lists names a.alphabet.toList
  start_eq : g.start = a.start
  mem_alternatives : ∀ {lhs rhs}, rhs ∈ g.alternatives lhs ↔ a.Rule lhs rhs
  terminals_eq : g.terminals = .ofList ((g.rules.flatMap fun rule => rule.2.filter g.isTerminal) ++
    g.symbols.ids.filter g.isTerminal)

theorem exists_grammarOf (ha : a.WellFormed) (hlength : names.length = a.states.size)
    (hlists : t.Lists names a.alphabet.toList)
    (ht : (a.grammarDefinition names).declaredTable (names.toArray.getD a.start "") = .ok t) :
    ∃ g, (a.grammarDefinition names).build = .ok g ∧ a.GrammarOf names g := by
  have hbuild := build_eq_ok hlists hlength ha ht
  refine ⟨_, hbuild, GrammarDefinition.consistent_of_build hbuild, hlength, hlists, rfl, ?_, ?_⟩
  · intro lhs rhs
    exact Productions.mem_alternatives_ofRules_iff.trans mem_numberedRules_iff
  · rw [OrderedSet.ofList, OrderedSet.insertAll_append]
    change OrderedSet.insertAll
      (Grammar.ofProductions t a.start (.ofRules a.numberedRules)).terminals _ = _
    rw [Grammar.terminals_ofProductions]
    rfl

section Outcome

theorem declaredTable_eq_ok_iff (hnodup : names.Nodup) {start : String} :
    (a.grammarDefinition names).declaredTable start = .ok t ↔ (∀ x ∈ names, validName x) ∧
      (∀ x ∈ a.alphabet, validName x ∧ x ∉ names) ∧ t.Lists names a.alphabet.toList :=
  GrammarDefinition.declaredTable_eq_ok_iff rfl rfl hnodup a.alphabet.nodup

variable (ha : a.WellFormed) (hnodup : names.Nodup) (hlength : names.length = a.states.size)
include ha hnodup hlength

theorem grammarOf_of_build (h : (a.grammarDefinition names).build = .ok g) :
    a.GrammarOf names g := by
  obtain ⟨t, ht, -⟩ := bind_eq_ok_iff.1 h
  obtain ⟨-, -, hlists⟩ := (declaredTable_eq_ok_iff hnodup).1 ht
  obtain ⟨g', hg', hof⟩ := exists_grammarOf ha hlength hlists ht
  cases hg'.symm.trans h
  exact hof

/-- There is a grammar if the names are valid and no state has the name of a symbol. -/
theorem exists_build_iff : (∃ g, (a.grammarDefinition names).build = .ok g) ↔
    (∀ x ∈ names, validName x) ∧ ∀ x ∈ a.alphabet, validName x ∧ x ∉ names := by
  constructor
  · rintro ⟨g, h⟩
    obtain ⟨t, ht, -⟩ := bind_eq_ok_iff.1 h
    obtain ⟨hnames, hsymbols, -⟩ := (declaredTable_eq_ok_iff hnodup).1 ht
    exact ⟨hnames, hsymbols⟩
  · rintro ⟨hnames, hsymbols⟩
    have hdisjoint : (names ++ a.alphabet.toList).Nodup := by
      refine List.nodup_append.2 ⟨hnodup, a.alphabet.nodup, ?_⟩
      rintro x hx _ hx' rfl
      exact (hsymbols x hx').2 hx
    obtain ⟨t, hlists⟩ := SymbolTable.exists_lists hdisjoint
    obtain ⟨g, hg, -⟩ := exists_grammarOf ha hlength hlists
      ((declaredTable_eq_ok_iff hnodup).2 ⟨hnames, hsymbols, hlists⟩)
    exact ⟨g, hg⟩

theorem exists_mem_of_build_eq_error {cause : LanguageError}
    (hvalid : ∀ x, x ∈ names ∨ x ∈ a.alphabet → validName x)
    (h : (a.grammarDefinition names).build = .error cause) :
    ∃ x ∈ a.alphabet, x ∈ names ∧ cause = .kindConflict x := by
  rcases bind_eq_error_iff.1 h with ht | ⟨t, ht, -⟩
  · exact GrammarDefinition.exists_mem_of_declaredTable_eq_error rfl rfl hnodup hvalid ht
  · obtain ⟨-, -, hlists⟩ := (declaredTable_eq_ok_iff hnodup).1 ht
    obtain ⟨g, hg, -⟩ := exists_grammarOf ha hlength hlists ht
    cases hg.symm.trans h

end Outcome

end Automaton
end Chomsky
