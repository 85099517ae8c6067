import Chomsky.Data.OrderedSet
import Chomsky.Symbol.Table

/-! # Grammars

A start symbol and alternatives for nonterminals, over the numbers of a symbol table. The
productions are listed in the order of their left-hand sides.
-/

namespace Chomsky

/-- A sequence of symbols: a right-hand side, or a stage of a derivation. -/
abbrev Form := List SymbolId

/-- The alternatives of each left-hand side. -/
abbrev Productions := OrderedMap SymbolId (List Form)

/-- The alternatives of a left-hand side, none if it has no entry. -/
def Productions.alternatives (ps : Productions) (lhs : SymbolId) : List Form :=
  (ps.get? lhs).getD []

def Productions.add (ps : Productions) (lhs : SymbolId) (rhs : Form) : Productions :=
  OrderedMap.upsert ps lhs fun alts => alts.getD [] ++ [rhs]

/-- The alternatives that single productions add one after the other. The last alternative is
held first until all are there. -/
def Productions.ofRules (rules : List (SymbolId × Form)) : Productions :=
  let held : Productions := rules.foldl (fun ps (lhs, rhs) =>
    OrderedMap.upsert ps lhs fun alts => rhs :: alts.getD []) ∅
  held.mapValues fun _ alts => alts.reverse

def Productions.rules (ps : Productions) : List (SymbolId × Form) :=
  ps.entries.flatMap fun (lhs, alts) => alts.map fun rhs => (lhs, rhs)

/-- A grammar whose left-hand sides are single nonterminals. -/
structure Grammar where
  symbols : SymbolTable
  start : SymbolId
  nonterminals : OrderedSet SymbolId
  terminals : OrderedSet SymbolId
  productions : Productions
deriving DecidableEq

namespace Grammar

/-- The grammar of a production map. Its sets hold the start symbol and what the productions
mention, in the order of the first mention. -/
def ofProductions (symbols : SymbolTable) (start : SymbolId) (productions : Productions) :
    Grammar where
  symbols := symbols
  start := start
  nonterminals := .ofList <| start :: productions.entries.flatMap fun (lhs, alts) =>
    lhs :: alts.flatten.filter fun s => !symbols.isTerminal s
  terminals := .ofList <| productions.entries.flatMap fun (_, alts) =>
    alts.flatten.filter symbols.isTerminal
  productions := productions

variable (g : Grammar)

def name (id : SymbolId) : String := g.symbols.name id

def startName : String := g.name g.start

def isTerminal (id : SymbolId) : Bool := g.symbols.isTerminal id

def spell (form : Form) : List String := form.map g.name

def rules : List (SymbolId × Form) := g.productions.rules

def alternatives (lhs : SymbolId) : List Form := g.productions.alternatives lhs

def productionsOf? (lhs : String) : Option (List Form) :=
  (g.symbols.lookup? lhs).bind g.productions.get?

def hasProduction (lhs : String) (rhs : List String) : Bool :=
  match g.productionsOf? lhs with
  | none => false
  | some alts => alts.any fun alt => g.spell alt == rhs

def hasNonterminal (name : String) : Bool :=
  match g.symbols.lookup? name with
  | none => false
  | some id => id ∈ g.nonterminals

def countProductions : Nat := g.productions.values.flatten.length

def occursOnRight (id : SymbolId) : Bool :=
  g.productions.values.flatten.any fun rhs => id ∈ rhs

/-- Whether two grammars agree by number, without regard to the order in which symbols and
left-hand sides were added. -/
def agrees (h : Grammar) : Bool :=
  g.symbols.agrees h.symbols && g.start == h.start &&
    g.nonterminals.sameMembers h.nonterminals && g.terminals.sameMembers h.terminals &&
    g.productions.sameEntries h.productions

end Grammar

theorem Productions.ofRules_eq (rules : List (SymbolId × Form)) :
    ofRules rules = rules.foldl (fun ps (lhs, rhs) => ps.add lhs rhs) ∅ := by
  suffices h : ∀ ps : Productions,
      (rules.foldl (fun ps (lhs, rhs) =>
        OrderedMap.upsert ps lhs fun alts => rhs :: alts.getD []) ps).mapValues
          (fun _ alts => alts.reverse) =
        rules.foldl (fun ps (lhs, rhs) => Productions.add ps lhs rhs)
          (ps.mapValues fun _ alts => alts.reverse) by
    rw [ofRules, h, OrderedMap.mapValues_empty]
  induction rules with
  | nil => exact fun ps => rfl
  | cons rule rules ih =>
    intro ps
    rw [List.foldl_cons, List.foldl_cons, ih]
    congr 1
    refine OrderedMap.mapValues_upsert fun alts => ?_
    cases alts <;> simp

namespace Grammar
variable {g : Grammar} {lhs : SymbolId} {rhs : Form}

theorem mem_rules : (lhs, rhs) ∈ g.rules ↔ rhs ∈ g.alternatives lhs := by
  simp only [rules, Productions.rules, alternatives, Productions.alternatives, List.mem_flatMap,
    List.mem_map, Prod.mk.injEq, Prod.exists]
  constructor
  · rintro ⟨k, alts, hmem, rhs', hrhs, rfl, rfl⟩
    rw [OrderedMap.get?_eq_some_iff.2 hmem]
    exact hrhs
  · intro h
    cases hget : g.productions.get? lhs with
    | none => simp [hget] at h
    | some alts =>
      rw [hget] at h
      exact ⟨lhs, alts, OrderedMap.get?_eq_some_iff.1 hget, rhs, h, rfl, rfl⟩

end Grammar
end Chomsky
