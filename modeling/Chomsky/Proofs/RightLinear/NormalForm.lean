import Chomsky.Proofs.Grammar.Failure
import Chomsky.Proofs.Grammar.Membership
import Chomsky.Proofs.Grammar.Normalization
import Chomsky.Proofs.RightLinear.Language

/-! # Normal forms of right-linear grammars

The first symbol of a right-linear production is a terminal, so leaving out symbols that vanish
yields no unit production (`Consistent.not_erasingStep`). Normalization therefore succeeds, and
the automaton and the membership test of the normal form agree on all words.
-/

namespace Chomsky.Grammar

variable {g : Grammar} {a : Automaton} {s t : SymbolId} {u v : Form}

section Consistent

variable (hg : g.Consistent)
include hg

theorem Consistent.not_mem_nullable (hs : g.isTerminal s) : s ∉ g.nullable := by
  intro hmem
  obtain ⟨_, hnil, -⟩ := (hg.expands_cons_iff hs).1 (expands_nil_of_mem_nullable hmem)
  cases hnil

theorem Consistent.exists_cons_of_mem_variants (hs : g.isTerminal s)
    (hv : v ∈ variants g.nullable (s :: u)) : ∃ v', v = s :: v' := by
  obtain ⟨v', -, heq | ⟨hmem, -⟩⟩ := mem_variants_cons_iff.1 hv
  · exact ⟨v', heq⟩
  · exact absurd hmem (hg.not_mem_nullable hs)

theorem Consistent.not_erasingStep
    (hlinear : ∀ lhs, ∀ rhs ∈ g.alternatives lhs, g.RightLinear rhs) : ¬g.ErasingStep s t := by
  intro hstep
  obtain ⟨⟨rhs, hrhs, hvariant⟩, hterminal⟩ := erasingStep_iff.1 hstep
  have hfirst : ∀ {b u}, rhs = b :: u → ¬g.isTerminal b := by
    rintro b u rfl hb
    obtain ⟨v', heq⟩ := hg.exists_cons_of_mem_variants hb hvariant
    obtain ⟨rfl, -⟩ := List.cons.inj heq
    exact hterminal hb
  rcases hlinear s rhs hrhs with rfl | ⟨b, hb, hterminal⟩ | ⟨b, m, hb, hterminal, -⟩
  · cases List.mem_singleton.1 hvariant
  · exact hfirst hb hterminal
  · exact hfirst hb hterminal

theorem Consistent.exists_normalize
    (hlinear : ∀ lhs, ∀ rhs ∈ g.alternatives lhs, g.RightLinear rhs) :
    ∃ n, g.normalize = .ok n := by
  cases h : g.normalize with
  | ok n => exact ⟨n, rfl⟩
  | error e =>
    obtain ⟨s, t, hne, hst, -⟩ :=
      (exists_normalizeWith_eq_error_iff hg not_isBlank_stem not_isBlank_startSuffix).1 ⟨e, h⟩
    cases hst using Relation.ReflTransGen.head_induction_on with
    | refl => exact absurd rfl hne
    | head hstep => exact absurd hstep (hg.not_erasingStep hlinear)

end Consistent

/-- A grammar that has an automaton has a normal form, and the membership test of the normal form
accepts the words that the automaton accepts. -/
theorem recognizes_normalize_of_toAutomaton (hg : g.Obtainable) (h : g.toAutomaton = .ok a) :
    ∃ n, g.normalize = .ok n ∧ ∀ w, a.accepts w = n.recognizes w := by
  have hc := hg.consistent
  obtain ⟨n, hn⟩ := hc.exists_normalize fun lhs rhs hrhs => hc.rightLinear_of_toAutomaton h hrhs
  have hnormal : ∀ lhs, ∀ rhs ∈ n.alternatives lhs, n.isNormal lhs rhs := fun lhs rhs hrhs =>
    isNormal_normalizeWith hc hn hrhs
  refine ⟨n, hn, fun w => Bool.eq_iff_iff.2 ?_⟩
  calc a.accepts w = true
    _ ↔ g.Generates w := accepts_toAutomaton_iff hc h
    _ ↔ n.Generates w := (generates_normalizeWith_iff hc hn).symm
    _ ↔ n.recognizes w :=
        ((consistent_normalizeWith hc hn).recognizes_iff_generates hnormal).symm

/-- An empty alternative of another nonterminal than the start symbol, and a nonterminal that is
neither reachable nor productive. -/
theorem rightLinear_loops : ((Grammar.parse "S -> a S | b T | ε\nT -> ε | b\nU -> a U").map fun g =>
    decide (∀ rule ∈ g.rules, g.RightLinear rule.2)) = .ok true := by
  decide +kernel

theorem recognizes_normalize_of_toAutomaton_loops : ∃ g a n,
    Grammar.parse "S -> a S | b T | ε\nT -> ε | b\nU -> a U" = .ok g ∧ g.toAutomaton = .ok a ∧
      g.normalize = .ok n ∧ ∀ w, a.accepts w = n.recognizes w := by
  obtain ⟨g, hg, hlinear⟩ := map_eq_ok_iff.1 rightLinear_loops
  obtain ⟨a, ha⟩ := (Obtainable.parse hg).consistent.exists_toAutomaton (of_decide_eq_true hlinear)
  obtain ⟨n, hn, hagree⟩ := recognizes_normalize_of_toAutomaton (.parse hg) ha
  exact ⟨g, a, n, hg, ha, hn, hagree⟩

end Chomsky.Grammar
