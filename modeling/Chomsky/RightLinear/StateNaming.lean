import Chomsky.Automaton.Basic

/-! # Names of states as nonterminals

A state keeps its name, or the number at the end of its name becomes a word of letters: `A`,
..., `Z`, `AA`, `AB`, ....
-/

namespace Chomsky

inductive StateNaming where
  | preserve
  | letters
deriving DecidableEq, Inhabited

namespace StateNaming

def word : StateNaming → String
  | preserve => "preserve"
  | letters => "letters"

def ofWord? (s : String) : Option StateNaming := [preserve, letters].find? (·.word == s)

end StateNaming

def decimalValue (digits : List Char) : Nat :=
  digits.foldl (fun n c => 10 * n + (c.toNat - '0'.toNat)) 0

/-- The text before the digits at the end, and these digits. -/
def cutDigits (s : List Char) : List Char × List Char :=
  ((s.reverse.dropWhile Char.isDigit).reverse, (s.reverse.takeWhile Char.isDigit).reverse)

/-- The number of a state: the ASCII digits at the end of its name, at least one, without a
sign before them, of a value that fits into 64 bits. -/
def stateNumber (name : String) : Except LanguageError Nat :=
  let (stem, digits) := cutDigits name.toList
  if digits.isEmpty || stem.getLast? == some '-' || stem.getLast? == some '+' ||
      UInt64.size ≤ decimalValue digits then
    .error (.stateNumber name)
  else .ok (decimalValue digits)

def letter (d : Nat) : Char := Char.ofNat ('A'.toNat + d)

/-- The `n`th word of letters, shorter words first. -/
def letterWord (n : Nat) : List Char :=
  if n < 26 then [letter n] else letterWord (n / 26 - 1) ++ [letter (n % 26)]
termination_by n
decreasing_by omega

def letterName (n : Nat) : String := String.ofList (letterWord n)

/-- Letter names for states, in order. `named` holds the names given before, with the states
that have them. -/
def letterNames (named : List (String × String)) :
    List String → Except LanguageError (List String)
  | [] => .ok []
  | state :: states => do
    let letters := letterName (← stateNumber state)
    match named.lookup letters with
    | some owner => throw (.nameCollision owner state letters)
    | none => return letters :: (← letterNames ((letters, state) :: named) states)

def Automaton.nonterminalNames (a : Automaton) : StateNaming → Except LanguageError (List String)
  | .preserve => .ok a.states.toList
  | .letters => letterNames [] a.states.toList

end Chomsky
