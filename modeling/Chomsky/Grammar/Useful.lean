import Chomsky.Grammar.Analysis

/-! # Useful symbols

Productions that no derivation of a word from the start symbol can use are dropped.
-/

namespace Chomsky.Grammar
variable (g : Grammar)

def removeUnreachable : Grammar :=
  let reachable := g.reachable
  .ofProductions g.symbols g.start <| g.productions.filter fun lhs _ => lhs ∈ reachable

/-- Without the productions that mention a nonterminal from which no word is derived. The
start symbol keeps its entry. -/
def removeNonProductive : Grammar :=
  let productive := g.productive
  .ofProductions g.symbols g.start <|
    (g.productions.filter fun lhs _ => lhs ∈ productive || lhs == g.start).mapValues
      fun _ alts => alts.filter (·.all fun s => g.isTerminal s || s ∈ productive)

end Chomsky.Grammar
