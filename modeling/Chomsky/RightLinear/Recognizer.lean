import Chomsky.Automaton.Basic
import Chomsky.Grammar.Basic

/-! # Automata of right-linear grammars

The nonterminals become states. A production `N -> a M` is a transition from `N` to `M`,
`N -> a` one to an extra accepting state, and `N -> ε` makes `N` accept.
-/

namespace Chomsky

def acceptName : String := "ACCEPT"

namespace Grammar
variable (g : Grammar)

def stateNames : OrderedSet String := .ofList (g.nonterminals.toList.map g.name)

/-- The name of the extra state: `acceptName` and as few quotes as possible. -/
def sentinelName : String :=
  let names := g.stateNames
  withQuotes (· ∈ names) names.size acceptName

def sentinel : StateId := g.nonterminals.size

/-- The symbol and the target of the transition for a right-hand side. -/
def transition? : Form → Option (SymbolIndex × StateId)
  | [a] => (g.terminals.idxOf? a).map fun i => (i, g.sentinel)
  | [a, m] => do return (← g.terminals.idxOf? a, ← g.nonterminals.idxOf? m)
  | _ => none

def stateOf (id : SymbolId) : Except LanguageError StateId :=
  match g.nonterminals.idxOf? id with
  | some q => .ok q
  | none => .error (.notDeclared (g.name id))

def addProduction (state : Transitions × StateSet) (rule : SymbolId × Form) :
    Except LanguageError (Transitions × StateSet) := do
  let source ← g.stateOf rule.1
  if rule.2.isEmpty then return (state.1, state.2.insert source)
  else match g.transition? rule.2 with
    | some (i, target) => return (state.1.add source i target, state.2)
    | none => throw (.notRightLinear (g.name rule.1) (g.symbols.render rule.2))

def toAutomaton : Except LanguageError Automaton := do
  let (transitions, accept) ← g.rules.foldlM g.addProduction (∅, .singleton g.sentinel)
  return {
    states := g.stateNames.insert g.sentinelName
    alphabet := .ofList (g.terminals.toList.map g.name)
    transitions := transitions
    start := ← g.stateOf g.start
    accept := accept }

end Grammar
end Chomsky
