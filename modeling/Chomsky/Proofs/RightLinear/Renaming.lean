import Chomsky.Proofs.Grammar.NameIndependence
import Chomsky.Proofs.Obtainable
import Chomsky.Proofs.RightLinear.Generator
import Chomsky.Proofs.RightLinear.StateNaming

/-! # Letters in place of names

The productions of the grammar of an automaton are known by number (`build_eq_ok`), so that the
grammars for two ways of naming the states have the same structure (`sameStructure_toGrammar`).
-/

namespace Chomsky

theorem Grammar.SameStructure.withDeclared {g g' : Grammar} (h : g.SameStructure g') :
    (GrammarDefinition.withDeclared g).SameStructure (GrammarDefinition.withDeclared g') where
  start := h.start
  kinds := h.kinds
  nonterminals := by
    rw [GrammarDefinition.withDeclared, GrammarDefinition.withDeclared, h.nonterminals,
      SymbolTable.ids, SymbolTable.ids, SymbolTable.size_eq_of_kinds h.kinds,
      SymbolTable.isNonterminal_eq_of_kinds h.kinds]
  terminals := by
    rw [GrammarDefinition.withDeclared, GrammarDefinition.withDeclared, h.terminals,
      SymbolTable.ids, SymbolTable.ids, SymbolTable.size_eq_of_kinds h.kinds,
      SymbolTable.isTerminal_eq_of_kinds h.kinds]
  productions := h.productions

namespace Automaton

open Grammar

variable {a : Automaton} {naming naming' : StateNaming} {names : List String} {g g' : Grammar}
  {q : StateId} {s : SymbolId}

/-- Only the table of the grammar depends on the names. -/
theorem WellFormed.toGrammar_eq_ok (ha : a.WellFormed) (h : a.toGrammar naming = .ok g) :
    ∃ names t, a.nonterminalNames naming = .ok names ∧ names.length = a.states.size ∧
      t.Lists names a.alphabet.toList ∧ g = GrammarDefinition.withDeclared
        (.ofProductions t a.start (.ofRules a.numberedRules)) := by
  obtain ⟨names, hnames, h⟩ := bind_eq_ok_iff.1 h
  obtain ⟨t, ht, -⟩ := bind_eq_ok_iff.1 h
  have hlength := length_nonterminalNames hnames
  obtain ⟨-, -, hlists⟩ := (declaredTable_eq_ok_iff (nodup_nonterminalNames hnames)).1 ht
  have hbuild := build_eq_ok hlists hlength ha ht
  exact ⟨names, t, hnames, hlength, hlists, Except.ok.inj (h.symm.trans hbuild)⟩

theorem WellFormed.sameStructure_toGrammar (ha : a.WellFormed) (h : a.toGrammar naming = .ok g)
    (h' : a.toGrammar naming' = .ok g') : SameStructure g g' := by
  obtain ⟨names, t, -, hlength, hlists, rfl⟩ := ha.toGrammar_eq_ok h
  obtain ⟨names', t', -, hlength', hlists', rfl⟩ := ha.toGrammar_eq_ok h'
  have hkinds : t.kinds = t'.kinds := by
    rw [hlists.kinds_eq, hlists'.kinds_eq, hlength, hlength']
  exact (sameStructure_ofProductions hkinds).withDeclared

/-- Kept names are those of the states, and letters stand for the numbers at the end of them.
Symbols have their names in both grammars. -/
theorem WellFormed.name_toGrammar (ha : a.WellFormed) (h : a.toGrammar .preserve = .ok g)
    (h' : a.toGrammar .letters = .ok g') :
    (∀ s, g.isTerminal s → g'.name s = g.name s) ∧
      ∀ q < a.states.size, g.name q = a.stateName q ∧
        ∃ n, EndsInNumber (a.stateName q) n ∧ g'.name q = letterName n := by
  obtain ⟨names, t, hnames, hlength, hlists, rfl⟩ := ha.toGrammar_eq_ok h
  obtain ⟨letters, t', hletters, hlength', hlists', rfl⟩ := ha.toGrammar_eq_ok h'
  obtain ⟨ns, hnumbered, rfl⟩ := letterNames_eq_ok_iff.1 hletters
  cases hnames
  constructor
  · intro s hs
    obtain ⟨i, -, rfl⟩ := hlists.isTerminal_iff.1 hs
    rw [hlength]
    exact (name_symbol hlists' hlength').trans (name_symbol hlists hlength).symm
  · intro q hq
    have hstate : a.states.toList[q]? = some (a.stateName q) := by
      rw [OrderedSet.getElem?_toList]
      exact stateName?_eq hq
    obtain ⟨n, hn, hnumber⟩ := hnumbered.exists_getElem? hstate
    constructor
    · change t.name q = a.stateName q
      rw [SymbolTable.name, hlists.name?_nonterminal (hlength ▸ hq), hstate, Option.getD_some]
    · refine ⟨n, hnumber, ?_⟩
      change t'.name q = letterName n
      rw [SymbolTable.name, hlists'.name?_nonterminal (hlength' ▸ hq), List.getElem?_map, hn]
      rfl

/-- Letters are given if the names of all states end in distinct numbers. Otherwise the first name
that does not, or that ends in the number of an earlier one, is the cause of failure. The grammars
with kept names and with letters are the same but for the names of the nonterminals. -/
theorem letterNaming_spec (a : Automaton) :
    (∀ names, a.nonterminalNames .letters = .ok names ↔
      ∃ ns, Numbered a.states.toList ns ∧ names = ns.map letterName) ∧
    (∀ cause, a.nonterminalNames .letters = .error cause ↔
      ∃ before state after, a.states.toList = before ++ state :: after ∧
        (∃ ns, Numbered before ns) ∧
          ((∀ n, ¬EndsInNumber state n) ∧ cause = .stateNumber state ∨
            ∃ owner n, owner ∈ before ∧ EndsInNumber owner n ∧ EndsInNumber state n ∧
              cause = .nameCollision owner state (letterName n))) ∧
    ∀ g g', a.Obtainable → a.toGrammar .preserve = .ok g → a.toGrammar .letters = .ok g' →
      g.SameStructure g' ∧ (∀ s, g.isTerminal s → g'.name s = g.name s) ∧
        ∀ q < a.states.size, g.name q = a.stateName q ∧
          ∃ n, EndsInNumber (a.stateName q) n ∧ g'.name q = letterName n :=
  ⟨fun _ => letterNames_eq_ok_iff, fun _ => letterNames_eq_error_iff, fun _ _ ha h h' =>
    ⟨ha.wellFormed.sameStructure_toGrammar h h', ha.wellFormed.name_toGrammar h h'⟩⟩

/-- The names end in seven and in ten. -/
def sevenAndTen : AutomatonDefinition where
  transitions := [("q007", "a", "10"), ("10", "b", "q007")]
  start := "q007"
  accept := ["10"]

theorem names_toGrammar_sevenAndTen :
    (sevenAndTen.build.bind fun a => (a.toGrammar .preserve).bind fun g =>
      (a.toGrammar .letters).map fun g' => (g.symbols.names, g'.symbols.names)) =
        .ok (["q007", "10", "a", "b"], ["H", "K", "a", "b"]) := by
  decide +kernel

/-- Both names end in one. -/
def twoOnes : AutomatonDefinition where
  transitions := [("q1", "a", "p01")]
  start := "q1"

theorem states_twoOnes : twoOnes.build.map (fun a => a.states.toList) = .ok ["q1", "p01"] := by
  decide +kernel

theorem letterNaming_spec_sevenAndTen :
    (∃ a g g', sevenAndTen.build = .ok a ∧ a.toGrammar .preserve = .ok g ∧
      a.toGrammar .letters = .ok g' ∧ g.symbols.names = ["q007", "10", "a", "b"] ∧
        g'.symbols.names = ["H", "K", "a", "b"] ∧ g.SameStructure g') ∧
    ∃ a, twoOnes.build = .ok a ∧
      a.nonterminalNames .letters = .error (.nameCollision "q1" "p01" "B") := by
  constructor
  · obtain ⟨a, ha, h⟩ := bind_eq_ok_iff.1 names_toGrammar_sevenAndTen
    obtain ⟨g, hg, h⟩ := bind_eq_ok_iff.1 h
    obtain ⟨g', hg', heq⟩ := map_eq_ok_iff.1 h
    obtain ⟨hnames, hnames'⟩ := Prod.mk.inj heq
    have hsame := (letterNaming_spec a).2.2 g g' (.build ha) hg hg'
    exact ⟨a, g, g', ha, hg, hg', hnames, hnames', hsame.1⟩
  · obtain ⟨a, ha, hstates⟩ := map_eq_ok_iff.1 states_twoOnes
    have hfirst : EndsInNumber "q1" 1 :=
      ⟨['q'], ['1'], by decide, by decide, by simp, by simp, rfl, by norm_num⟩
    have hsecond : EndsInNumber "p01" 1 :=
      ⟨['p'], ['0', '1'], by decide, by decide, by simp, by simp, rfl, by norm_num⟩
    have hletter : letterName 1 = "B" := by cbv
    refine ⟨a, ha, ((letterNaming_spec a).2.1 _).2 ⟨["q1"], "p01", [], hstates, ?_, ?_⟩⟩
    · exact ⟨[1], .cons hfirst .nil, List.nodup_singleton 1⟩
    · exact Or.inr ⟨"q1", 1, List.mem_singleton.2 rfl, hfirst, hsecond, by rw [hletter]⟩

end Automaton
end Chomsky
