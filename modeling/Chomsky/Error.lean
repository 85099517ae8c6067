import Chomsky.Text.Quoted

/-! # Causes of failure

Why a definition, a conversion, a normalization or a sampling run has no result, and the
message that says so.
-/

namespace Chomsky

/-- The cause for which an operation on a grammar or an automaton fails. -/
inductive LanguageError where
  /-- A state name does not end in a usable number. -/
  | stateNumber (name : String)
  /-- A right-hand side is not of the right-linear form. -/
  | notRightLinear (lhs rhs : String)
  /-- Unit productions lead from a nonterminal back to it. -/
  | unitCycle (names : List String)
  /-- A derivation used up its expansion steps. -/
  | budgetExceeded (steps : Nat)
  /-- A grammar has neither a start symbol nor a production. -/
  | emptyDefinition
  /-- A name does not belong to a declared set. -/
  | notDeclared (name : String)
  /-- A name stands for a terminal and for a nonterminal. -/
  | kindConflict (name : String)
  /-- A name cannot name a symbol. -/
  | invalidName (name : String)
  /-- A line is not a rule. -/
  | malformedRule (line : String)
  /-- An automaton has no start state. -/
  | noStart
  /-- Two states would receive one name. -/
  | nameCollision (first second name : String)
  /-- A nonterminal has no alternative to choose. -/
  | noProductions (name : String)
deriving DecidableEq

def LanguageError.message : LanguageError → String
  | stateNumber name =>
    "state `" ++ name ++ "` must be a prefix followed by a nonnegative integer, e.g. `q3`"
  | notRightLinear lhs rhs =>
    "production `" ++ lhs ++ " -> " ++ rhs ++ "` is not of the form `a` or `a B`"
  | unitCycle names => "unit productions form a cycle: " ++ " -> ".intercalate names
  | budgetExceeded steps =>
    "derivation did not terminate within " ++ toString steps ++ " expansion steps"
  | emptyDefinition => "no productions supplied and no start symbol given"
  | notDeclared name => "symbol `" ++ name ++ "` is not declared"
  | kindConflict name =>
    "symbol `" ++ name ++ "` is declared both as a terminal and as a nonterminal"
  | invalidName name => "invalid symbol name " ++ Text.quote name
  | malformedRule line =>
    "malformed rule " ++ Text.quote line ++ ": expected `Lhs -> rhs | rhs`"
  | noStart => "automaton has no start state"
  | nameCollision first second name =>
    "states " ++ first ++ " and " ++ second ++ " map to the same name `" ++ name ++ "`"
  | noProductions name => "nonterminal `" ++ name ++ "` has no productions to expand"

end Chomsky
