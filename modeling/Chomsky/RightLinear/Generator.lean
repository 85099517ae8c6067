import Chomsky.Grammar.Definition
import Chomsky.RightLinear.StateNaming

/-! # Right-linear grammars of automata

The states become nonterminals. A transition from `S` to `T` on `a` is the production
`S -> a T`, and also `S -> a` if `T` accepts; an accepting start state has `S -> ε`.
-/

namespace Chomsky.Automaton
variable (a : Automaton)

def edgeRules (name : StateId → String) (edge : StateId × SymbolIndex × StateId) :
    List (String × List String) :=
  let (q, i, r) := edge
  (name q, [a.symbolName i, name r]) ::
    if r ∈ a.accept then [(name q, [a.symbolName i])] else []

def namedRules (name : StateId → String) : List (String × List String) :=
  distinct <| a.edges.flatMap (a.edgeRules name) ++
    if a.start ∈ a.accept then [(name a.start, [])] else []

def grammarDefinition (names : List String) : GrammarDefinition :=
  let table := names.toArray
  let name q := table.getD q ""
  { start := some (name a.start)
    nonterminals := some names
    terminals := some a.alphabet.toList
    rules := a.namedRules name }

/-- The right-linear grammar for the language of the automaton. -/
def toGrammar (naming : StateNaming) : Except LanguageError Grammar := do
  let names ← a.nonterminalNames naming
  (a.grammarDefinition names).build

end Chomsky.Automaton
