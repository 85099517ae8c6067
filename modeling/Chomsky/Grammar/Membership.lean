import Chomsky.Data.BitSet
import Chomsky.Grammar.Basic

/-! # Membership by spans

The symbols from which each span of a word is derived, for grammars in Chomsky normal form:
only productions of the shapes `A -> a` and `A -> B C` are consulted, and `S -> ε` for the
empty word. A place in a word is numbered by the symbols after it, and a span leads from a
greater number to a smaller one. Each symbol has its spans as a set of starts for each end.
-/

namespace Chomsky.Grammar

/-- Places by symbol: where the spans that a symbol derives start or end. -/
abbrev PlaceRow := Array BitSet

def PlaceRow.places (row : PlaceRow) (s : SymbolId) : BitSet := row.getD s ∅

def PlaceRow.add (row : PlaceRow) (place : Nat) (symbols : List SymbolId) : PlaceRow :=
  symbols.foldl (fun row s => row.modify s (·.insert place)) row

variable (g : Grammar)

def headsOfTerminal (a : SymbolId) : List SymbolId :=
  g.rules.filterMap fun (lhs, rhs) => if rhs = [a] ∧ g.isTerminal a then some lhs else none

def pairRules : List (SymbolId × SymbolId × SymbolId) :=
  g.rules.filterMap fun (lhs, rhs) =>
    match rhs with
    | [b, c] =>
      if g.symbols.isNonterminal b && g.symbols.isNonterminal c then some (lhs, b, c) else none
    | _ => none

/-- The left-hand sides of the pairs that derive a span, from the ends of the shorter spans with
the same start and the starts of the shorter spans with the same end. -/
def headsOfSplits (pairs : List (SymbolId × SymbolId × SymbolId)) (ends starts : PlaceRow) :
    List SymbolId :=
  (pairs.filter fun (_, b, c) => (ends.places b).meets (starts.places c)).map Prod.fst

/-- Add the spans that start at a place to the starts for each of the last `n` ends, listed from
the greatest end on. `ends` are the ends of those found so far. -/
def addSpans (pairs : List (SymbolId × SymbolId × SymbolId)) (start : Nat) :
    Nat → PlaceRow → List PlaceRow → List PlaceRow
  | n + 1, ends, starts :: rows =>
    let heads := headsOfSplits pairs ends starts
    starts.add start heads :: addSpans pairs start n (ends.add n heads) rows
  | _, _, _ => []

/-- The starts of the spans of a word for each end, listed from the greatest end on. -/
def spanRows (pairs : List (SymbolId × SymbolId × SymbolId)) : Form → List PlaceRow
  | [] => []
  | a :: word =>
    let blank : PlaceRow := Array.replicate g.symbols.size ∅
    let heads := g.headsOfTerminal a
    let n := word.length
    blank.add (n + 1) heads :: addSpans pairs (n + 1) n (blank.add n heads) (spanRows pairs word)

def terminalsNamed? (w : List String) : Option Form :=
  w.mapM fun name => (g.symbols.lookup? name).filter g.isTerminal

/-- Whether the start symbol derives a word of terminals, by spans. -/
def derivesWord (word : Form) : Bool :=
  match (g.spanRows g.pairRules word).getLast? with
  | none => [] ∈ g.alternatives g.start
  | some starts => word.length ∈ starts.places g.start

def recognizes (w : List String) : Bool :=
  match g.terminalsNamed? w with
  | none => false
  | some word => g.derivesWord word

def recognizesString (s : String) : Bool := g.recognizes (Text.characters s)

variable {g} {row : PlaceRow} {place i : Nat} {s : SymbolId} {symbols : List SymbolId}

@[simp] theorem size_add : (row.add place symbols).size = row.size := by
  induction symbols generalizing row with
  | nil => rfl
  | cons s symbols ih => simpa [PlaceRow.add] using @ih (row.modify s (·.insert place))

theorem mem_places_add :
    i ∈ (row.add place symbols).places s ↔
      i ∈ row.places s ∨ i = place ∧ s ∈ symbols ∧ s < row.size := by
  induction symbols generalizing row with
  | nil => simp [PlaceRow.add]
  | cons t symbols ih =>
    have h := @ih (row.modify t (·.insert place))
    rw [show row.add place (t :: symbols) =
      PlaceRow.add (row.modify t (·.insert place)) place symbols from rfl, h]
    simp only [PlaceRow.places, Array.getD_eq_getD_getElem?, Array.getElem?_modify,
      Array.size_modify, List.mem_cons]
    by_cases hts : t = s
    · subst hts
      by_cases hlt : t < row.size
      · simp [hlt, or_assoc]
        grind
      · simp [hlt]
    · simp [hts, Ne.symm hts]

theorem mem_headsOfSplits {pairs : List (SymbolId × SymbolId × SymbolId)}
    {ends starts : PlaceRow} : s ∈ headsOfSplits pairs ends starts ↔
      ∃ b c, (s, b, c) ∈ pairs ∧ ∃ i, i ∈ ends.places b ∧ i ∈ starts.places c := by
  simp [headsOfSplits, BitSet.meets_iff]

end Chomsky.Grammar
