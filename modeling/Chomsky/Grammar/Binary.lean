import Chomsky.Data.Numbering
import Chomsky.Grammar.Basic

/-! # Binary grammars

Right-hand sides of two or more symbols become pairs of nonterminals. A terminal in one is
lifted to a variable of its own, and all but the first symbol fold into a chain of variables.
Equal terminals and equal remainders share their variable.
-/

namespace Chomsky

/-- How the symbols that a normal form adds are named. -/
structure NormalFormNames where
  /-- The stem of numbered variables. -/
  stem : String := "X"
  /-- What a new start symbol adds to the name of the old one. -/
  startSuffix : String := "'"
deriving DecidableEq

/-- The variables introduced so far: which terminal or which remainder each stands for, and
the productions that define them, in the order in which they were made. Remainders are found by
their lengths first, since those of one form differ in them. -/
structure Variables where
  symbols : SymbolTable
  counter : Nat := 0
  lifted : OrderedMap SymbolId SymbolId := ∅
  folded : OrderedMap (Nat × Form) SymbolId := ∅
  definitions : Array (SymbolId × Form) := #[]

namespace Variables

def fresh (stem : String) (v : Variables) : Except LanguageError (SymbolId × Variables) :=
  let (entered, counter) := v.symbols.freshNumbered stem v.counter .nonterminal
  entered.map fun (id, symbols) => (id, { v with symbols, counter })

def define (v : Variables) (id : SymbolId) (rhs : Form) : Variables :=
  { v with definitions := v.definitions.push (id, rhs) }

def forTerminal (stem : String) (v : Variables) (a : SymbolId) :
    Except LanguageError (SymbolId × Variables) :=
  match v.lifted.get? a with
  | some id => .ok (id, v)
  | none => do
    let (id, v) ← v.fresh stem
    return (id, { v with lifted := v.lifted.insert a id }.define id [a])

def folded? (v : Variables) (form : Form) : Option SymbolId := v.folded.get? (form.length, form)

def fold (v : Variables) (form : Form) (id : SymbolId) : Variables :=
  { v with folded := v.folded.insert (form.length, form) id }

/-- The variable that stands for the two given nonterminals and the rest after them. It is
numbered before the variables of the rest, and defined after them. -/
def forChain (stem : String) (v : Variables) (a b : SymbolId) :
    Form → Except LanguageError (SymbolId × Variables)
  | [] =>
    match v.folded? [a, b] with
    | some id => .ok (id, v)
    | none => do
      let (id, v) ← v.fresh stem
      return (id, (v.fold [a, b] id).define id [a, b])
  | c :: rest =>
    match v.folded? (a :: b :: c :: rest) with
    | some id => .ok (id, v)
    | none => do
      let (id, v) ← v.fresh stem
      let (tail, v) ← forChain stem (v.fold (a :: b :: c :: rest) id) b c rest
      return (id, v.define id [a, tail])

def liftAll (stem : String) (v : Variables) : Form → Except LanguageError (Form × Variables)
  | [] => .ok ([], v)
  | s :: rhs => do
    let (s, v) ← if v.symbols.isTerminal s then v.forTerminal stem s else .ok (s, v)
    let (rhs, v) ← liftAll stem v rhs
    return (s :: rhs, v)

/-- The alternative of at most two symbols that stands for a right-hand side. -/
def binarize (stem : String) (v : Variables) (rhs : Form) :
    Except LanguageError (Form × Variables) :=
  if rhs.length < 2 then .ok (rhs, v)
  else do
    let (lifted, v) ← v.liftAll stem rhs
    match lifted with
    | a :: b :: c :: rest =>
      let (tail, v) ← v.forChain stem b c rest
      return ([a, tail], v)
    | short => return (short, v)

def binarizeAll (stem : String) (v : Variables) :
    List Form → Except LanguageError (List Form × Variables)
  | [] => .ok ([], v)
  | rhs :: alts => do
    let (rhs, v) ← v.binarize stem rhs
    let (alts, v) ← binarizeAll stem v alts
    return (rhs :: alts, v)

def binarizeEntries (stem : String) (v : Variables) :
    List (SymbolId × List Form) → Except LanguageError (List (SymbolId × List Form) × Variables)
  | [] => .ok ([], v)
  | (lhs, alts) :: entries => do
    let (alts, v) ← v.binarizeAll stem alts
    let (entries, v) ← binarizeEntries stem v entries
    return ((lhs, distinct alts) :: entries, v)

end Variables

namespace Grammar
variable (g : Grammar)

/-- A start symbol that occurs in no right-hand side, as a table, its number and the
productions: the grammar's own one, or a new one that takes over the alternatives of the old
one, of which the old one loses the empty alternative. -/
def separateStart (suffix : String) : Except LanguageError (SymbolTable × SymbolId × Productions) :=
  if g.occursOnRight g.start then do
    let (start, symbols) ← g.symbols.fresh (g.startName ++ suffix) .nonterminal
    let own := g.productions.mapValues fun lhs alts =>
      if lhs = g.start then alts.filter (!·.isEmpty) else alts
    return (symbols, start, .ofList ((start, g.alternatives g.start) :: own.entries))
  else return (g.symbols, g.start, g.productions)

/-- The same language with right-hand sides of one symbol or of two nonterminals. -/
def binarizeWith (names : NormalFormNames) : Except LanguageError Grammar := do
  let (symbols, start, productions) ← g.separateStart names.startSuffix
  let (entries, v) ← Variables.binarizeEntries names.stem { symbols } productions.entries
  return .ofProductions v.symbols start <|
    v.definitions.foldl (fun ps (lhs, rhs) => Productions.add ps lhs rhs) (.ofList entries)

def binarize : Except LanguageError Grammar := g.binarizeWith {}

end Grammar
end Chomsky
