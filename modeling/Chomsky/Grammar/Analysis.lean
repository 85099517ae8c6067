import Chomsky.Data.Discovery
import Chomsky.Grammar.Basic

/-! # Nullable, productive and reachable nonterminals

Nullable and productive nonterminals are saturations: a left-hand side is added once one of
its alternatives consists of symbols that are known. Reachable ones are found by exploration.
All three are listed in the order of discovery.
-/

namespace Chomsky

/-- Whether a form consists of symbols that are known from the outset or have become known. -/
def covers (base : SymbolId → Bool) (known : OrderedSet SymbolId) (rhs : Form) : Bool :=
  rhs.all fun s => base s || s ∈ known

/-- One round over the productions; a left-hand side counts as known at once. -/
def Productions.round (ps : Productions) (base : SymbolId → Bool)
    (known : OrderedSet SymbolId) : OrderedSet SymbolId :=
  ps.entries.foldl (fun known (lhs, alts) =>
    if alts.any (covers base known) then known.insert lhs else known) known

def Productions.saturate (ps : Productions) (base : SymbolId → Bool) :
    Nat → OrderedSet SymbolId → OrderedSet SymbolId
  | 0, known => known
  | fuel + 1, known =>
    let known' := ps.round base known
    if known'.size = known.size then known else saturate ps base fuel known'

/-- The left-hand sides that become known if the symbols of the base are. -/
def Productions.closure (ps : Productions) (base : SymbolId → Bool) : OrderedSet SymbolId :=
  ps.saturate base ps.size ∅

namespace Grammar
variable (g : Grammar)

def nullable : OrderedSet SymbolId := g.productions.closure fun _ => false

def productive : OrderedSet SymbolId := g.productions.closure g.isTerminal

/-- The symbols other than terminals in the alternatives of a nonterminal. -/
def mentions (lhs : SymbolId) : List SymbolId :=
  (g.alternatives lhs).flatten.filter fun s => !g.isTerminal s

def reachable : List SymbolId :=
  search id g.mentions (g.symbols.size + 1) g.start

end Grammar
end Chomsky
