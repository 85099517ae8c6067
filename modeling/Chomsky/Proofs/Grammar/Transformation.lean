import Chomsky.Proofs.Grammar.Normalization

/-! # Sequences of transformations

A transformation may add symbols to the table of a grammar, but those that are there keep their
numbers, names and kinds. All that the grammar mentions stays in range and in the set of its kind,
whatever transformations follow each other.
-/

namespace Chomsky.Grammar

open Relation

variable {g n : Grammar} {s : SymbolId}

/-- One transformation of a grammar, under any names for the symbols that it may add. -/
inductive Transforms : Grammar → Grammar → Prop
  | eliminateEpsilon (g : Grammar) : Transforms g g.eliminateEpsilon
  | eliminateUnits {g u : Grammar} (h : g.eliminateUnits = .ok u) : Transforms g u
  | removeUnreachable (g : Grammar) : Transforms g g.removeUnreachable
  | removeNonProductive (g : Grammar) : Transforms g g.removeNonProductive
  | binarize {g b : Grammar} (names : NormalFormNames) (h : g.binarizeWith names = .ok b) :
      Transforms g b
  | normalize {g n : Grammar} (names : NormalFormNames) (h : g.normalizeWith names = .ok n) :
      Transforms g n

/-- The numbers that occur in a grammar. -/
inductive Occurs (g : Grammar) : SymbolId → Prop
  | start : Occurs g g.start
  | key {lhs : SymbolId} (h : lhs ∈ g.productions.keys) : Occurs g lhs
  | right {lhs s : SymbolId} {rhs : Form} (h : rhs ∈ g.alternatives lhs) (hs : s ∈ rhs) :
      Occurs g s
  | nonterminal {s : SymbolId} (h : s ∈ g.nonterminals) : Occurs g s
  | terminal {s : SymbolId} (h : s ∈ g.terminals) : Occurs g s

/-- A grammar in which every look-up of a number succeeds, and every symbol is in the set of its
kind and in no other one. -/
structure Sound (g : Grammar) : Prop where
  occurs_lt : ∀ s, g.Occurs s → s < g.symbols.size
  exists_entry : ∀ s < g.symbols.size, ∃ name kind,
    g.symbols.name? s = some name ∧ g.symbols.kind? s = some kind ∧ validName name
  name_injective : ∀ s s' name, g.symbols.name? s = some name → g.symbols.name? s' = some name →
    s = s'
  kind_unique : ∀ name ∈ g.symbols.names, ∃! kind, ∃ s,
    g.symbols.name? s = some name ∧ g.symbols.kind? s = some kind
  start_mem : g.start ∈ g.nonterminals
  key_mem : ∀ lhs ∈ g.productions.keys, lhs ∈ g.nonterminals
  right_mem : ∀ lhs, ∀ rhs ∈ g.alternatives lhs, ∀ s ∈ rhs,
    g.symbols.kind? s = some .nonterminal ∧ s ∈ g.nonterminals ∧ s ∉ g.terminals ∨
    g.symbols.kind? s = some .terminal ∧ s ∈ g.terminals ∧ s ∉ g.nonterminals
  nonterminal : ∀ s ∈ g.nonterminals, g.symbols.kind? s = some .nonterminal
  terminal : ∀ s ∈ g.terminals, g.symbols.kind? s = some .terminal

theorem Consistent.lt_of_occurs (hg : g.Consistent) (h : g.Occurs s) : s < g.symbols.size := by
  cases h with
  | start => exact hg.start_lt
  | key h => exact hg.key_lt h
  | right h hs => exact hg.productions_over.symbol_lt h s hs
  | nonterminal h => exact SymbolTable.lt_size_of_isNonterminal (hg.nonterminal s h)
  | terminal h => exact SymbolTable.lt_size_of_isTerminal (hg.terminal s h)

theorem Consistent.not_mem_terminals (hg : g.Consistent) (hs : s ∈ g.nonterminals) :
    s ∉ g.terminals := fun hterminal => hg.not_isTerminal_of_mem hs (hg.terminal s hterminal)

theorem Consistent.sound (hg : g.Consistent) : g.Sound where
  occurs_lt s := hg.lt_of_occurs
  exists_entry s hs := by
    obtain ⟨kind, hkind⟩ := SymbolTable.exists_kind? hs
    have hname := SymbolTable.name?_eq_some_name hs
    refine ⟨g.symbols.name s, kind, hname, hkind, hg.valid _ ?_⟩
    rw [← SymbolTable.getElem?_names] at hname
    exact List.mem_of_getElem? hname
  name_injective s s' name hs hs' := by
    rw [← SymbolTable.lookup?_eq_some_iff] at hs hs'
    exact Option.some.inj (hs.symm.trans hs')
  kind_unique name hname := by
    obtain ⟨s, hs⟩ := List.mem_iff_getElem?.1 hname
    rw [SymbolTable.getElem?_names] at hs
    obtain ⟨kind, hkind⟩ := SymbolTable.exists_kind? (SymbolTable.lt_size_of_name? hs)
    refine ⟨kind, ⟨s, hs, hkind⟩, ?_⟩
    rintro kind' ⟨s', hs', hkind'⟩
    rw [← SymbolTable.lookup?_eq_some_iff] at hs hs'
    obtain rfl := Option.some.inj (hs.symm.trans hs')
    exact Option.some.inj (hkind'.symm.trans hkind)
  start_mem := hg.start_mem
  key_mem := hg.key_mem
  right_mem lhs rhs hrhs s hs := by
    rcases hg.symbol_mem hrhs s hs with hmem | hmem
    · exact Or.inl ⟨SymbolTable.isNonterminal_iff.1 (hg.nonterminal s hmem), hmem,
        hg.not_mem_terminals hmem⟩
    · exact Or.inr ⟨SymbolTable.isTerminal_iff.1 (hg.terminal s hmem), hmem,
        fun hnot => hg.not_mem_terminals hnot hmem⟩
  nonterminal s hs := SymbolTable.isNonterminal_iff.1 (hg.nonterminal s hs)
  terminal s hs := SymbolTable.isTerminal_iff.1 (hg.terminal s hs)

theorem Consistent.transforms (hg : g.Consistent) (h : Transforms g n) :
    n.Consistent ∧ n.symbols.Extends g.symbols := by
  cases h with
  | eliminateEpsilon => exact ⟨hg.eliminateEpsilon, .refl _⟩
  | eliminateUnits h =>
    refine ⟨hg.eliminateUnits h, ?_⟩
    rw [symbols_eliminateUnits h]
    exact .refl _
  | removeUnreachable => exact ⟨hg.removeUnreachable, .refl _⟩
  | removeNonProductive => exact ⟨hg.removeNonProductive, .refl _⟩
  | binarize names h => exact ⟨(exists_binaryOf hg h).1, (symbols_binarizeWith hg h).1⟩
  | normalize names h =>
    exact ⟨consistent_normalizeWith hg h, (symbols_normalizeWith hg h).1⟩

/-- What a sequence of transformations keeps. -/
theorem Consistent.reflTransGen_transforms (hg : g.Consistent) (h : ReflTransGen Transforms g n) :
    n.Consistent ∧ n.symbols.Extends g.symbols := by
  induction h with
  | refl => exact ⟨hg, .refl _⟩
  | tail _ hstep ih =>
    obtain ⟨hn, hext⟩ := ih.1.transforms hstep
    exact ⟨hn, hext.trans ih.2⟩

/-- Every grammar that can be obtained is sound. What transformations make of it is sound too, and
has its symbols under the same numbers. -/
theorem sound_of_obtainable (hg : g.Obtainable) :
    g.Sound ∧ ∀ n, ReflTransGen Transforms g n →
      n.Sound ∧ n.symbols.Extends g.symbols ∧
      ∀ s < g.symbols.size, n.symbols.name? s = g.symbols.name? s ∧
        n.symbols.kind? s = g.symbols.kind? s := by
  refine ⟨hg.consistent.sound, fun n hn => ?_⟩
  obtain ⟨hconsistent, hext⟩ := hg.consistent.reflTransGen_transforms hn
  exact ⟨hconsistent.sound, hext, fun s hs => ⟨hext.name?_eq hs, hext.kind?_eq hs⟩⟩

theorem sound_of_obtainable_brackets : ∃ g n, Grammar.parse "S -> a S b | ε" = .ok g ∧
    g.normalizeWith {} = .ok n ∧ g.Sound ∧ n.Sound ∧ n.symbols.Extends g.symbols := by
  obtain ⟨g, hg, hstart⟩ := bind_eq_ok_iff.1 start_normalize_brackets
  obtain ⟨n, hn, -⟩ := map_eq_ok_iff.1 hstart
  obtain ⟨hsound, hall⟩ := sound_of_obtainable (.parse hg)
  obtain ⟨hsound', hext, -⟩ := hall n (.single (.normalize {} hn))
  exact ⟨g, n, hg, hn, hsound, hsound', hext⟩

end Chomsky.Grammar
