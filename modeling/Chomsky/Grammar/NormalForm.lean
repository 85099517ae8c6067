import Chomsky.Grammar.Binary
import Chomsky.Grammar.EpsilonFree
import Chomsky.Grammar.UnitFree
import Chomsky.Grammar.Useful

/-! # Chomsky normal form

Every right-hand side is one terminal or two nonterminals; only a start symbol that occurs in
no right-hand side may have the empty alternative. Normalization removes empty alternatives,
unit productions and useless symbols, and then makes the grammar binary.
-/

namespace Chomsky.Grammar
variable (g : Grammar)

def isNormal (lhs : SymbolId) : Form → Bool
  | [] => lhs == g.start && !g.occursOnRight g.start
  | [a] => g.isTerminal a
  | [b, c] => g.symbols.isNonterminal b && g.symbols.isNonterminal c
  | _ => false

def violations : List String :=
  (g.rules.filter fun (lhs, rhs) => !g.isNormal lhs rhs).map fun (lhs, rhs) =>
    g.name lhs ++ " -> " ++ g.symbols.render rhs

def isChomskyNormalForm : Bool := g.violations.isEmpty

/-- A grammar in normal form for the same language. -/
def normalizeWith (names : NormalFormNames) : Except LanguageError Grammar := do
  let g ← g.eliminateEpsilon.eliminateUnits
  g.removeUnreachable.removeNonProductive.removeUnreachable.binarizeWith names

def normalize : Except LanguageError Grammar := g.normalizeWith {}

variable {g}

theorem isChomskyNormalForm_iff :
    g.isChomskyNormalForm ↔ ∀ lhs rhs, rhs ∈ g.alternatives lhs → g.isNormal lhs rhs := by
  simp [isChomskyNormalForm, violations, List.filter_eq_nil_iff, mem_rules]

end Chomsky.Grammar
