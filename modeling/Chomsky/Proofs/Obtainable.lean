import Chomsky.Grammar.Text
import Chomsky.Proofs.Automaton.Minimal
import Chomsky.Proofs.Automaton.Subsets
import Chomsky.Proofs.Grammar.Definition
import Chomsky.Proofs.Grammar.NormalForm
import Chomsky.Proofs.RightLinear.Recognizer
import Chomsky.RightLinear.Generator

/-! # What can be obtained

Grammars and automata come from definitions, from text, from each other, and from the operations on
them. Whatever is obtained so is consistent or well formed.
-/

namespace Chomsky

/-- The grammars that definitions, conversions and transformations yield. -/
inductive Grammar.Obtainable : Grammar → Prop
  | build {d : GrammarDefinition} {g : Grammar} (h : d.build = .ok g) : Obtainable g
  | parse {text : String} {g : Grammar} (h : Grammar.parse text = .ok g) : Obtainable g
  | ofAutomaton {a : Automaton} {naming : StateNaming} {g : Grammar}
      (h : a.toGrammar naming = .ok g) : Obtainable g
  | eliminateEpsilon {g : Grammar} (hg : Obtainable g) : Obtainable g.eliminateEpsilon
  | eliminateUnits {g u : Grammar} (hg : Obtainable g) (h : g.eliminateUnits = .ok u) : Obtainable u
  | removeUnreachable {g : Grammar} (hg : Obtainable g) : Obtainable g.removeUnreachable
  | removeNonProductive {g : Grammar} (hg : Obtainable g) : Obtainable g.removeNonProductive
  | binarize {g b : Grammar} {names : NormalFormNames} (hg : Obtainable g)
      (h : g.binarizeWith names = .ok b) : Obtainable b
  | normalize {g n : Grammar} {names : NormalFormNames} (hg : Obtainable g)
      (h : g.normalizeWith names = .ok n) : Obtainable n

theorem Grammar.Obtainable.consistent {g : Grammar} (h : g.Obtainable) : g.Consistent := by
  induction h with
  | build h => exact GrammarDefinition.consistent_of_build h
  | parse h =>
    obtain ⟨d, -, h⟩ := bind_eq_ok_iff.1 h
    exact GrammarDefinition.consistent_of_build h
  | ofAutomaton h =>
    obtain ⟨names, -, h⟩ := bind_eq_ok_iff.1 h
    exact GrammarDefinition.consistent_of_build h
  | eliminateEpsilon _ ih => exact ih.eliminateEpsilon
  | eliminateUnits _ h ih => exact ih.eliminateUnits h
  | removeUnreachable _ ih => exact ih.removeUnreachable
  | removeNonProductive _ ih => exact ih.removeNonProductive
  | binarize _ h ih => exact (Grammar.exists_binaryOf ih h).1
  | normalize _ h ih => exact Grammar.consistent_normalizeWith ih h

/-- The automata that definitions, conversions and transformations yield. -/
inductive Automaton.Obtainable : Automaton → Prop
  | build {d : AutomatonDefinition} {a : Automaton} (h : d.build = .ok a) : Obtainable a
  | ofGrammar {g : Grammar} {a : Automaton} (hg : g.Obtainable) (h : g.toAutomaton = .ok a) :
      Obtainable a
  | toDeterministic {a d : Automaton} (ha : Obtainable a) (h : a.toDeterministic = .ok d) :
      Obtainable d
  | subsetConstruction {a d : Automaton} (ha : Obtainable a) (h : a.subsetConstruction = .ok d) :
      Obtainable d
  | minimize {a m : Automaton} (ha : Obtainable a) (h : a.minimize = .ok m) : Obtainable m

namespace Automaton

variable {a : Automaton}

theorem Obtainable.wellFormed (h : a.Obtainable) : a.WellFormed := by
  induction h with
  | build h => exact AutomatonDefinition.wellFormed_of_build h
  | ofGrammar hg h => exact hg.consistent.wellFormed_toAutomaton h
  | toDeterministic _ h ih => exact ih.toDeterministic h
  | subsetConstruction _ h _ => exact wellFormed_subsetConstruction h
  | minimize _ h ih =>
    obtain ⟨d, hd, rfl⟩ := map_eq_ok_iff.1 h
    exact wellFormed_merged (ih.toDeterministic hd)

end Automaton
end Chomsky
