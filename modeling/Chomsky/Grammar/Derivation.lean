import Chomsky.Grammar.Basic

/-! # Derivations

What a grammar means: a step replaces one nonterminal by one of its alternatives, a
derivation is a chain of steps, and the grammar generates the words of terminals derived from
its start symbol.
-/

namespace Chomsky.Grammar

/-- One step: an occurrence of a left-hand side is replaced by an alternative. -/
inductive Yields (g : Grammar) : Form → Form → Prop
  | expand (u v : Form) {lhs : SymbolId} {rhs : Form} (h : (lhs, rhs) ∈ g.rules) :
      Yields g (u ++ lhs :: v) (u ++ rhs ++ v)

inductive Derives (g : Grammar) : Form → Form → Prop
  | refl (u : Form) : Derives g u u
  | tail {u v w : Form} : Derives g u v → Yields g v w → Derives g u w

/-- The names spell a word of terminals that is derived from the symbol. -/
def GeneratesFrom (g : Grammar) (id : SymbolId) (w : List String) : Prop :=
  ∃ word : Form, g.Derives [id] word ∧ (∀ a ∈ word, g.isTerminal a) ∧
    word.map g.symbols.name? = w.map some

/-- The names spell a word of the language. -/
def Generates (g : Grammar) (w : List String) : Prop := g.GeneratesFrom g.start w

variable {g : Grammar} {u v w x y : Form}

theorem Yields.append_left (h : g.Yields u v) (x : Form) : g.Yields (x ++ u) (x ++ v) := by
  cases h with
  | expand a b h => simpa using Yields.expand (x ++ a) b h

theorem Yields.append_right (h : g.Yields u v) (x : Form) : g.Yields (u ++ x) (v ++ x) := by
  cases h with
  | expand a b h => simpa using Yields.expand a (b ++ x) h

theorem Derives.single (h : g.Yields u v) : g.Derives u v := .tail (.refl u) h

theorem Derives.trans (h : g.Derives u v) (h' : g.Derives v w) : g.Derives u w := by
  induction h' with
  | refl => exact h
  | tail _ hy ih => exact ih.tail hy

theorem Derives.append_left (h : g.Derives u v) (x : Form) : g.Derives (x ++ u) (x ++ v) := by
  induction h with
  | refl => exact .refl _
  | tail _ hy ih => exact ih.tail (hy.append_left x)

theorem Derives.append_right (h : g.Derives u v) (x : Form) : g.Derives (u ++ x) (v ++ x) := by
  induction h with
  | refl => exact .refl _
  | tail _ hy ih => exact ih.tail (hy.append_right x)

theorem Derives.append (h : g.Derives u v) (h' : g.Derives x y) :
    g.Derives (u ++ x) (v ++ y) :=
  (h.append_right x).trans (h'.append_left v)

end Chomsky.Grammar
