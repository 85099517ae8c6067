import Chomsky.Data.OrderedMap
import Chomsky.Error
import Chomsky.Symbol.Fresh
import Chomsky.Symbol.Kind
import Chomsky.Text.Blank

/-! # Symbol tables

Every name of a grammar is entered once, with one kind, and known by its number afterwards.
Terminals and nonterminals therefore never share a name.
-/

namespace Chomsky

abbrev SymbolId := Nat

def epsilon : String := "ε"

/-- A name for a symbol: not empty, without blanks, and not the sign for the empty word. -/
def validName (name : String) : Bool :=
  !name.toList.isEmpty && !name.toList.any Text.isBlank && name != epsilon

/-- The names of a grammar in the order of their numbers, with their kinds. -/
structure SymbolTable where
  entries : OrderedMap String SymbolKind
deriving DecidableEq

namespace SymbolTable

def empty : SymbolTable := ⟨∅⟩

instance : EmptyCollection SymbolTable := ⟨empty⟩
instance : Inhabited SymbolTable := ⟨empty⟩

def size (t : SymbolTable) : Nat := t.entries.size

def names (t : SymbolTable) : List String := t.entries.keys

def kinds (t : SymbolTable) : List SymbolKind := t.entries.values

def ids (t : SymbolTable) : List SymbolId := List.range t.size

def lookup? (t : SymbolTable) (name : String) : Option SymbolId := t.entries.place? name

def contains (t : SymbolTable) (name : String) : Bool := t.entries.contains name

def name? (t : SymbolTable) (id : SymbolId) : Option String :=
  (t.entries.entryAt? id).map Prod.fst

def kind? (t : SymbolTable) (id : SymbolId) : Option SymbolKind :=
  (t.entries.entryAt? id).map Prod.snd

def name (t : SymbolTable) (id : SymbolId) : String := (t.name? id).getD ""

def isTerminal (t : SymbolTable) (id : SymbolId) : Bool := t.kind? id == some .terminal

def isNonterminal (t : SymbolTable) (id : SymbolId) : Bool := t.kind? id == some .nonterminal

/-- Enter a name with a kind, or find it if it is there with that kind. -/
def intern (t : SymbolTable) (name : String) (kind : SymbolKind) :
    Except LanguageError (SymbolId × SymbolTable) :=
  if validName name then
    match t.lookup? name with
    | some id => if t.kind? id = some kind then .ok (id, t) else .error (.kindConflict name)
    | none => .ok (t.size, ⟨t.entries.insert name kind⟩)
  else .error (.invalidName name)

def internAll (t : SymbolTable) (names : List String) (kind : SymbolKind) :
    Except LanguageError SymbolTable :=
  names.foldlM (fun t name => (t.intern name kind).map Prod.snd) t

/-- Enter an unused name: `base` and as few quotes as possible. -/
def fresh (t : SymbolTable) (base : String) (kind : SymbolKind) :
    Except LanguageError (SymbolId × SymbolTable) :=
  t.intern (withQuotes t.contains t.size base) kind

/-- Enter an unused name: `stem` and the least possible number from `counter` on. The second
component is the counter for the next name. -/
def freshNumbered (t : SymbolTable) (stem : String) (counter : Nat) (kind : SymbolKind) :
    Except LanguageError (SymbolId × SymbolTable) × Nat :=
  let n := leastUnused t.contains t.size (numbered stem) counter
  (t.intern (numbered stem n) kind, n + 1)

def render (t : SymbolTable) : List SymbolId → String
  | [] => epsilon
  | rhs => " ".intercalate (rhs.map t.name)

def knows (t : SymbolTable) (ids : List SymbolId) : Bool := ids.all (· < t.size)

/-- Tables with the same names, in any order, and the same kinds by number. -/
def agrees (t u : SymbolTable) : Bool :=
  t.names.all u.contains && u.names.all t.contains && t.kinds == u.kinds

variable {t u : SymbolTable} {name : String} {kind : SymbolKind} {id : SymbolId}

theorem nodup_names (t : SymbolTable) : t.names.Nodup := t.entries.nodup_keys

@[simp] theorem length_names (t : SymbolTable) : t.names.length = t.size := by
  simp [names, OrderedMap.keys, size]

@[simp] theorem length_kinds (t : SymbolTable) : t.kinds.length = t.size := by
  simp [kinds, OrderedMap.values, size]

theorem getElem?_names (t : SymbolTable) (id : SymbolId) : t.names[id]? = t.name? id := by
  rw [names, OrderedMap.keys, List.getElem?_map, OrderedMap.getElem?_entries, name?]

theorem getElem?_kinds (t : SymbolTable) (id : SymbolId) : t.kinds[id]? = t.kind? id := by
  rw [kinds, OrderedMap.values, List.getElem?_map, OrderedMap.getElem?_entries, kind?]

theorem contains_iff : t.contains name ↔ name ∈ t.names := t.entries.contains_iff

theorem lookup?_eq_some_iff : t.lookup? name = some id ↔ t.name? id = some name := by
  rw [← getElem?_names]
  exact t.entries.place?_eq_some_iff

end SymbolTable
end Chomsky
