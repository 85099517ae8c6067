import Chomsky.Text.Uppercase

/-! # Kinds of symbols

Terminals and nonterminals, and the kind that a bare name suggests.
-/

namespace Chomsky

inductive SymbolKind where
  | terminal
  | nonterminal
deriving DecidableEq, Inhabited

namespace SymbolKind

def infer (name : String) : SymbolKind :=
  match name.toList with
  | [] => .terminal
  | c :: _ => if Text.isUppercase c then .nonterminal else .terminal

theorem infer_eq_nonterminal_iff {name : String} :
    infer name = .nonterminal ↔ ∃ c ∈ name.toList.head?, Text.isUppercase c := by
  unfold infer
  cases name.toList with
  | nil => simp
  | cons c s => simp

def word : SymbolKind → String
  | terminal => "terminal"
  | nonterminal => "nonterminal"

def ofWord? (s : String) : Option SymbolKind :=
  [terminal, nonterminal].find? (·.word == s)

end SymbolKind
end Chomsky
