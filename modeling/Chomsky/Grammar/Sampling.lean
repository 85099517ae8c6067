import Chomsky.Grammar.Basic

/-! # Sampling words

Leftmost derivations in which a source of choices picks the alternatives. A budget bounds the
number of expansions. What is proved about sampling holds for all sources. `WordSource` is the one
that programs use: it makes uniform choices from a cyclic list of 32-bit words, as a library of
random numbers does. It stands outside of what is proved.
-/

namespace Chomsky

structure SamplingLimits where
  /-- How many nonterminals a derivation may expand. -/
  maxSteps : Nat := 10000
deriving DecidableEq

/-- A list of 32-bit words that is read in a cycle, and how many have been read. -/
structure WordSource where
  words : Array UInt32
  taken : Nat := 0

namespace WordSource

/-- The next word; an empty list yields zeros and is never read. -/
def next (source : WordSource) : Nat × WordSource :=
  if source.words.isEmpty then (0, source)
  else ((source.words.getD (source.taken % source.words.size) 0).toNat,
    { source with taken := source.taken + 1 })

/-- A number below `n`: the integer part of a word scaled from 32 bits to `n`. If the
fraction is so close to one that the following digits matter, a second word supplies them. -/
def below (n : Nat) (source : WordSource) : Nat × WordSource :=
  let (w, source) := source.next
  let scaled := w * n
  let whole := scaled / UInt32.size
  let fraction := scaled % UInt32.size
  if fraction ≤ UInt32.size - n then (whole, source)
  else
    let (v, source) := source.next
    (if UInt32.size ≤ fraction + v * n / UInt32.size then whole + 1 else whole, source)

end WordSource

namespace Grammar
variable {σ : Type u} (g : Grammar) (choose : Nat → σ → Nat × σ)

/-- Expand the leftmost nonterminal of `pending` until none is left, with at most `fuel`
expansions of the `limit` that the message names. `choose n` picks one of `n` alternatives, and
`emitted` holds the terminals before `pending`, the last one first. -/
def expandLeftmost (limit : Nat) : Nat → Form → Form → σ → Except LanguageError Form × σ
  | fuel, emitted, pending, source =>
    match pending.dropWhile fun s => !g.symbols.isNonterminal s with
    | [] => (.ok (emitted.reverse ++ pending), source)
    | lhs :: rest =>
      match fuel with
      | 0 => (.error (.budgetExceeded limit), source)
      | fuel + 1 =>
        match g.alternatives lhs with
        | [] => (.error (.noProductions (g.name lhs)), source)
        | alts =>
          let (i, source) := choose alts.length source
          let terminals := pending.takeWhile fun s => !g.symbols.isNonterminal s
          expandLeftmost limit fuel (terminals.reverse ++ emitted) (alts.getD i [] ++ rest) source

def sample (limits : SamplingLimits) (source : σ) : Except LanguageError Form × σ :=
  g.expandLeftmost choose limits.maxSteps limits.maxSteps [] [g.start] source

def sampleMany (limits : SamplingLimits) : Nat → σ → List (Except LanguageError Form) × σ
  | 0, source => ([], source)
  | count + 1, source =>
    let (word, source) := g.sample choose limits source
    let (words, source) := sampleMany limits count source
    (word :: words, source)

end Grammar
end Chomsky
