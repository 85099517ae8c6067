import Chomsky.Grammar.Binary
import Chomsky.Grammar.Hierarchy
import Chomsky.Grammar.Sampling
import Chomsky.RightLinear.StateNaming

/-! # Options as data

Options are read from values of a data format and written back. A record may leave fields out,
which then have their defaults, and may have others, which are ignored. In place of a record
there may be the list of the first few of its values. A word stands for itself, also as the only
key of a record without a value. These are the conventions of a library that reads and writes data;
programs use them at their edge, and they stand outside of what is proved.
-/

namespace Chomsky

inductive DataValue where
  | null
  | bool (b : Bool)
  | whole (n : Int)
  | fraction
  | text (s : String)
  | list (values : List DataValue)
  | record (fields : List (String × DataValue))
deriving Inhabited

namespace DataValue

/-- The fields of a record, or those of the list of the values of the first keys. -/
def toFields? (keys : List String) : DataValue → Option (List (String × DataValue))
  | record fields => some fields
  | list values => if values.length ≤ keys.length then some (keys.zip values) else none
  | _ => none

/-- A field that may be left out: its default, or what its value is read as. -/
def field {α : Type} (fields : List (String × DataValue)) (key : String) (default : α)
    (read : DataValue → Option α) : Option α :=
  match fields.lookup key with
  | none => some default
  | some value => read value

/-- A number that fits into 64 bits without a sign. -/
def toCount? : DataValue → Option Nat
  | whole n => if 0 ≤ n ∧ n.toNat < UInt64.size then some n.toNat else none
  | _ => none

def toText? : DataValue → Option String
  | text s => some s
  | _ => none

/-- A word, or the only key of a record without a value for it. -/
def toWord? : DataValue → Option String
  | text s => some s
  | record [(s, null)] => some s
  | _ => none

end DataValue

open DataValue

def SamplingLimits.ofData? (value : DataValue) : Option SamplingLimits := do
  let fields ← value.toFields? ["max_steps"]
  let defaults : SamplingLimits := {}
  return { maxSteps := ← field fields "max_steps" defaults.maxSteps toCount? }

def SamplingLimits.toData (limits : SamplingLimits) : DataValue :=
  record [("max_steps", whole limits.maxSteps)]

def NormalFormNames.ofData? (value : DataValue) : Option NormalFormNames := do
  let fields ← value.toFields? ["fresh_prefix", "start_suffix"]
  let defaults : NormalFormNames := {}
  return {
    stem := ← field fields "fresh_prefix" defaults.stem toText?
    startSuffix := ← field fields "start_suffix" defaults.startSuffix toText? }

def NormalFormNames.toData (names : NormalFormNames) : DataValue :=
  record [("fresh_prefix", text names.stem), ("start_suffix", text names.startSuffix)]

def StateNaming.ofData? (value : DataValue) : Option StateNaming :=
  value.toWord?.bind StateNaming.ofWord?

def StateNaming.toData (naming : StateNaming) : DataValue := text naming.word

def SymbolKind.ofData? (value : DataValue) : Option SymbolKind :=
  value.toWord?.bind SymbolKind.ofWord?

def SymbolKind.toData (kind : SymbolKind) : DataValue := text kind.word

def ChomskyType.ofData? (value : DataValue) : Option ChomskyType :=
  value.toWord?.bind ChomskyType.ofWord?

def ChomskyType.toData (type : ChomskyType) : DataValue := text type.word

end Chomsky
