import Chomsky.Grammar.Basic

/-! # Definitions of grammars

A grammar given by names. Names whose kind is not declared get one: left-hand sides are
nonterminals, and so is every name with an uppercase initial. A declared set is closed, the
other one stays open.
-/

namespace Chomsky

/-- A grammar before its names are entered in a table. -/
structure GrammarDefinition where
  start : Option String := none
  nonterminals : Option (List String) := none
  terminals : Option (List String) := none
  rules : List (String × List String) := []

/-- How names that are not in the table are entered. -/
structure Vocabulary where
  /-- The names on the left of rules. -/
  lefts : OrderedSet String
  /-- Whether no name of a kind may be added. -/
  closed : SymbolKind → Bool

namespace Vocabulary
variable (v : Vocabulary)

def kindOf (name : String) : SymbolKind :=
  if name ∈ v.lefts then .nonterminal else .infer name

/-- The number of a name, which is entered unless its kind is closed. -/
def resolve (t : SymbolTable) (name : String) : Except LanguageError (SymbolId × SymbolTable) :=
  match t.lookup? name with
  | some id => .ok (id, t)
  | none =>
    if v.closed (v.kindOf name) then .error (.notDeclared name)
    else t.intern name (v.kindOf name)

def resolveAll (t : SymbolTable) : List String → Except LanguageError (Form × SymbolTable)
  | [] => .ok ([], t)
  | name :: names => do
    let (id, t) ← v.resolve t name
    let (ids, t) ← resolveAll t names
    return (id :: ids, t)

def resolveNonterminal (t : SymbolTable) (name : String) :
    Except LanguageError (SymbolId × SymbolTable) := do
  let (id, t) ← v.resolve t name
  if t.isNonterminal id then return (id, t) else throw (.notDeclared name)

def resolveRules (t : SymbolTable) :
    List (String × List String) → Except LanguageError (List (SymbolId × Form) × SymbolTable)
  | [] => .ok ([], t)
  | (lhs, rhs) :: rules => do
    let (lhs, t) ← v.resolveNonterminal t lhs
    let (rhs, t) ← v.resolveAll t rhs
    let (rules, t) ← resolveRules t rules
    return ((lhs, rhs) :: rules, t)

end Vocabulary

namespace GrammarDefinition

def addRule (d : GrammarDefinition) (lhs : String) (rhs : List String) : GrammarDefinition :=
  { d with rules := d.rules ++ [(lhs, rhs)] }

def addCharRule (d : GrammarDefinition) (lhs rhs : String) : GrammarDefinition :=
  d.addRule lhs (Text.characters rhs)

variable (d : GrammarDefinition)

/-- The name of the start symbol: the given one, or the first left-hand side. -/
def startName? : Option String := d.start.or (d.rules.head?.map Prod.fst)

def vocabulary : Vocabulary where
  lefts := .ofList (d.rules.map Prod.fst)
  closed
    | .terminal => d.terminals.isSome
    | .nonterminal => d.nonterminals.isSome

/-- The table before any production is entered: the declared names, and without declared
nonterminals the start symbol and the left-hand sides. -/
def declaredTable (start : String) : Except LanguageError SymbolTable := do
  let t ← SymbolTable.internAll ∅ (d.nonterminals.getD []) .nonterminal
  let t ← t.internAll (d.terminals.getD []) .terminal
  if d.nonterminals.isSome then return t
  else t.internAll (start :: d.rules.map Prod.fst) .nonterminal

/-- Add every symbol of the table to the set of its kind, whether a rule mentions it or not. -/
def withDeclared (g : Grammar) : Grammar :=
  { g with
    nonterminals := g.nonterminals.insertAll (g.symbols.ids.filter g.symbols.isNonterminal)
    terminals := g.terminals.insertAll (g.symbols.ids.filter g.symbols.isTerminal) }

def build : Except LanguageError Grammar :=
  match d.startName? with
  | none => .error .emptyDefinition
  | some startName => do
    let t ← d.declaredTable startName
    let vocabulary := d.vocabulary
    let (start, t) ← vocabulary.resolveNonterminal t startName
    let (rules, t) ← vocabulary.resolveRules t d.rules
    let g := Grammar.ofProductions t start (.ofRules rules)
    return if d.nonterminals.isSome || d.terminals.isSome then withDeclared g else g

theorem kindOf_vocabulary (name : String) : d.vocabulary.kindOf name =
    if name ∈ d.rules.map Prod.fst then .nonterminal else .infer name := by
  simp only [Vocabulary.kindOf, vocabulary, OrderedSet.mem_ofList]

end GrammarDefinition
end Chomsky
