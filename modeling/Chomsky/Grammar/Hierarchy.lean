import Chomsky.Grammar.Basic

/-! # The Chomsky hierarchy

Rules with arbitrary left-hand sides, and the most restricted of the four types that admits a
list of them.
-/

namespace Chomsky

inductive ChomskyType where
  | unrestricted
  | contextSensitive
  | contextFree
  | regular
deriving DecidableEq

namespace ChomskyType

/-- The number of a type; greater numbers are more restricted. -/
def number : ChomskyType → Nat
  | unrestricted => 0
  | contextSensitive => 1
  | contextFree => 2
  | regular => 3

instance : LE ChomskyType := ⟨fun a b => a.number ≤ b.number⟩
instance (a b : ChomskyType) : Decidable (a ≤ b) :=
  inferInstanceAs (Decidable (a.number ≤ b.number))

def adjective : ChomskyType → String
  | unrestricted => "unrestricted"
  | contextSensitive => "context-sensitive"
  | contextFree => "context-free"
  | regular => "regular"

def render (type : ChomskyType) : String :=
  "type " ++ toString type.number ++ " (" ++ type.adjective ++ ")"

def word : ChomskyType → String
  | unrestricted => "unrestricted"
  | contextSensitive => "context_sensitive"
  | contextFree => "context_free"
  | regular => "regular"

def ofWord? (s : String) : Option ChomskyType :=
  [unrestricted, contextSensitive, contextFree, regular].find? (·.word == s)

end ChomskyType

structure GeneralRule where
  lhs : Form
  rhs : Form
deriving DecidableEq

namespace SymbolTable

/-- Enter names with the kinds they suggest. The table keeps the names entered before one
that fails. -/
def internInferred (t : SymbolTable) : List String → Except LanguageError Form × SymbolTable
  | [] => (.ok [], t)
  | name :: names =>
    match t.intern name (.infer name) with
    | .error e => (.error e, t)
    | .ok (id, t) =>
      let (ids, t) := internInferred t names
      (ids.map (id :: ·), t)

/-- Read a rule `a B -> a B C`, entering its names. -/
def readRule (t : SymbolTable) (line : String) : Except LanguageError GeneralRule × SymbolTable :=
  match Text.cutAtArrow line.toList with
  | none => (.error (.malformedRule line), t)
  | some (before, after) =>
    let symbols side := ((Text.words side).map String.ofList).filter (· != epsilon)
    match t.internInferred (symbols before) with
    | (.error e, t) => (.error e, t)
    | (.ok lhs, t) =>
      match t.internInferred (symbols after) with
      | (.error e, t) => (.error e, t)
      | (.ok rhs, t) =>
        if lhs.isEmpty then (.error (.malformedRule line), t) else (.ok ⟨lhs, rhs⟩, t)

def readRules (t : SymbolTable) :
    List String → List (Except LanguageError GeneralRule) × SymbolTable
  | [] => ([], t)
  | line :: lines =>
    let (rule, t) := t.readRule line
    let (rules, t) := readRules t lines
    (rule :: rules, t)

variable (t : SymbolTable)

def isContextFreeRule (r : GeneralRule) : Bool :=
  match r.lhs with
  | [a] => t.isNonterminal a
  | _ => false

/-- Terminals, with at most one nonterminal after them. -/
def isRightLinear (rhs : Form) : Bool := rhs.dropLast.all t.isTerminal

/-- Terminals, with at most one nonterminal before them. -/
def isLeftLinear (rhs : Form) : Bool := rhs.tail.all t.isTerminal

def firstHead? : List GeneralRule → Option SymbolId
  | [] => none
  | r :: _ =>
    match r.lhs with
    | [a] => if t.isNonterminal a then some a else none
    | _ => none

/-- No rule shortens a form, except that the start symbol may vanish if it occurs in no
right-hand side. -/
def isNoncontracting (rules : List GeneralRule) : Bool :=
  rules.all fun r =>
    if r.lhs.length ≤ r.rhs.length && !r.rhs.isEmpty then true
    else match t.firstHead? rules with
      | some s => r.rhs.isEmpty && r.lhs == [s] && !rules.any fun r' => s ∈ r'.rhs
      | none => false

/-- The most restricted type that admits the rules. -/
def classify (rules : List GeneralRule) : ChomskyType :=
  if rules.all t.isContextFreeRule then
    if (rules.all fun r => t.isRightLinear r.rhs) || rules.all fun r => t.isLeftLinear r.rhs then
      .regular
    else .contextFree
  else if (rules.all fun r => r.lhs.any t.isNonterminal) && t.isNoncontracting rules then
    .contextSensitive
  else .unrestricted

end SymbolTable

def Grammar.classify (g : Grammar) : ChomskyType :=
  g.symbols.classify <| g.rules.map fun (lhs, rhs) => ⟨[lhs], rhs⟩

end Chomsky
