import Chomsky.Data.Numbering
import Chomsky.Grammar.Analysis

/-! # Grammars without empty alternatives

Every alternative is replaced by what remains of it when nullable symbols are left out. Only
the start symbol may keep the empty alternative.
-/

namespace Chomsky

/-- The forms that arise from one by leaving out occurrences of nullable symbols, each once, the
form itself first. -/
def variants (nullable : OrderedSet SymbolId) : Form → List Form
  | [] => [[]]
  | s :: rhs =>
    if s ∈ nullable then distinct ((variants nullable rhs).flatMap fun v => [s :: v, v])
    else (variants nullable rhs).map (s :: ·)

def nonemptyVariants (nullable : OrderedSet SymbolId) (alts : List Form) : List Form :=
  distinct <| (alts.flatMap (variants nullable)).filter (!·.isEmpty)

namespace Grammar

def eliminateEpsilon (g : Grammar) : Grammar :=
  let nullable := g.nullable
  let kept := (g.productions.mapValues fun _ alts => nonemptyVariants nullable alts).filter
    fun lhs alts => !alts.isEmpty || lhs == g.start
  .ofProductions g.symbols g.start <|
    if g.start ∈ nullable then Productions.add kept g.start [] else kept

end Grammar

theorem sublist_of_mem_variants {nullable : OrderedSet SymbolId} {rhs v : Form}
    (h : v ∈ variants nullable rhs) : v.Sublist rhs := by
  induction rhs generalizing v with
  | nil => simp_all [variants]
  | cons s rhs ih =>
    simp only [variants] at h
    split at h
    · obtain ⟨u, hu, h⟩ := List.mem_flatMap.1 (mem_distinct.1 h)
      rcases List.mem_cons.1 h with rfl | h
      · exact (ih hu).cons_cons s
      · rw [List.mem_singleton.1 h]
        exact (ih hu).cons s
    · obtain ⟨u, hu, rfl⟩ := List.mem_map.1 h
      exact (ih hu).cons_cons s

end Chomsky
