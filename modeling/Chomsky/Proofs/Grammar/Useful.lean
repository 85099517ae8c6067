import Chomsky.Grammar.Useful
import Chomsky.Proofs.Grammar.EpsilonFree

/-! # Derivations use useful symbols only

What reachable symbols expand to, they do by productions of reachable nonterminals
(`restrict_reachable`), and every expansion uses productions of productive symbols only
(`restrict_productive`). Dropping the others preserves the language.
-/

namespace Chomsky.Grammar

variable {g : Grammar} {lhs : SymbolId} {rhs u w : Form}

theorem mem_alternatives_removeUnreachable_iff : rhs ∈ g.removeUnreachable.alternatives lhs ↔
    lhs ∈ g.reachable ∧ rhs ∈ g.alternatives lhs := by
  apply Productions.mem_alternatives_filter_iff.trans
  rw [alternatives, Productions.mem_alternatives_iff]
  simp only [decide_eq_true_eq]
  constructor
  · rintro ⟨alts, hget, hlhs, hrhs⟩
    exact ⟨hlhs, alts, hget, hrhs⟩
  · rintro ⟨hlhs, alts, hget, hrhs⟩
    exact ⟨alts, hget, hlhs, hrhs⟩

theorem mem_alternatives_removeNonProductive_iff :
    rhs ∈ g.removeNonProductive.alternatives lhs ↔
      rhs ∈ g.alternatives lhs ∧ ∀ s ∈ rhs, g.isTerminal s ∨ s ∈ g.productive := by
  apply Productions.mem_alternatives_mapValues_iff.trans
  simp only [OrderedMap.get?_filter_eq_some_iff, List.mem_filter, List.all_eq_true, Bool.or_eq_true,
    decide_eq_true_eq, beq_iff_eq, alternatives, Productions.mem_alternatives_iff]
  constructor
  · rintro ⟨alts, ⟨hget, -⟩, hrhs, hs⟩
    exact ⟨⟨alts, hget, hrhs⟩, hs⟩
  · rintro ⟨⟨alts, hget, hrhs⟩, hs⟩
    have hlhs := productive_closed (Productions.mem_alternatives_iff.2 ⟨alts, hget, hrhs⟩) hs
    exact ⟨alts, ⟨hget, Or.inl hlhs⟩, hrhs, hs⟩

theorem Consistent.removeUnreachable (h : g.Consistent) : g.removeUnreachable.Consistent :=
  consistent_ofProductions h.valid h.isNonterminal_start (h.productions_over.filter _)

theorem Consistent.removeNonProductive (h : g.Consistent) : g.removeNonProductive.Consistent := by
  apply consistent_ofProductions h.valid h.isNonterminal_start
  apply (h.productions_over.filter _).mapValues
  intro lhs alts rhs hget hrhs s hs
  exact ⟨lhs, rhs, Productions.mem_alternatives_iff.2 ⟨alts, hget, (List.mem_filter.1 hrhs).1⟩, hs⟩

theorem forall_mem_start : ∀ s ∈ [g.start], g.isTerminal s ∨ s ∈ g.reachable :=
  List.forall_mem_singleton.2 (Or.inr start_mem_reachable)

section Rules

variable {rule : SymbolId → Form → Prop}
  (hrule : ∀ {lhs rhs}, rule lhs rhs → rhs ∈ g.alternatives lhs)
include hrule

theorem restrict_reachable (hg : g.Consistent) (hu : ∀ s ∈ u, g.isTerminal s ∨ s ∈ g.reachable)
    (h : Chomsky.Expands (fun s => g.isTerminal s) rule u w) :
    Chomsky.Expands (fun s => g.isTerminal s) (fun lhs rhs => lhs ∈ g.reachable ∧ rule lhs rhs)
      u w := by
  have hnonterminal : ∀ {lhs rhs}, rule lhs rhs → ¬g.isTerminal lhs := fun h =>
    hg.not_isTerminal_lhs (hrule h)
  have hrestrict := h.restrict (p := fun s => g.isTerminal s ∨ s ∈ g.reachable)
    (fun {lhs rhs} hlhs h s hs => ?_) hu
  · exact hrestrict.mono fun ⟨hlhs, h⟩ => ⟨hlhs.resolve_left (hnonterminal h), h⟩
  · have hlhs := hlhs.resolve_left (hnonterminal h)
    by_cases hterminal : g.isTerminal s
    · exact Or.inl hterminal
    · exact Or.inr (hg.reachable_closed hlhs (hrule h) hs hterminal)

theorem restrict_productive (h : Chomsky.Expands (fun s => g.isTerminal s) rule u w) :
    Chomsky.Expands (fun s => g.isTerminal s)
      (fun lhs rhs => rule lhs rhs ∧ ∀ s ∈ rhs, g.isTerminal s ∨ s ∈ g.productive) u w := by
  induction h with
  | nil => exact .nil
  | terminal ha _ ih => exact .terminal ha ih
  | expand h hrhs _ ih ih' =>
    exact .expand ⟨h, forall_mem_productive (hrhs.mono hrule)⟩ ih ih'

end Rules

theorem expands_removeUnreachable (hg : g.Consistent)
    (hu : ∀ s ∈ u, g.isTerminal s ∨ s ∈ g.reachable) (h : g.Expands u w) :
    g.removeUnreachable.Expands u w :=
  (restrict_reachable (fun h => h) hg hu h).mono mem_alternatives_removeUnreachable_iff.2

theorem expands_removeUnreachable_iff (hg : g.Consistent) :
    g.removeUnreachable.Expands [g.start] w ↔ g.Expands [g.start] w := by
  constructor
  · exact Chomsky.Expands.mono fun h => (mem_alternatives_removeUnreachable_iff.1 h).2
  · exact expands_removeUnreachable hg forall_mem_start

theorem expands_removeNonProductive_iff :
    g.removeNonProductive.Expands u w ↔ g.Expands u w := by
  constructor
  · exact Chomsky.Expands.mono fun h => (mem_alternatives_removeNonProductive_iff.1 h).1
  · intro h
    exact (restrict_productive (fun h => h) h).mono mem_alternatives_removeNonProductive_iff.2

theorem EmptyOnlyAtStart.removeUnreachable (hg : g.Consistent) (h : g.EmptyOnlyAtStart) :
    g.removeUnreachable.EmptyOnlyAtStart where
  eq_start hnil := h.eq_start (mem_alternatives_removeUnreachable_iff.1 hnil).2
  nonempty {w} hw hne := by
    have hw := h.nonempty ((expands_removeUnreachable_iff hg).1 hw) hne
    refine (restrict_reachable And.left hg forall_mem_start hw).mono fun ⟨hlhs, hrhs, hne⟩ => ?_
    exact ⟨mem_alternatives_removeUnreachable_iff.2 ⟨hlhs, hrhs⟩, hne⟩

theorem EmptyOnlyAtStart.removeNonProductive (h : g.EmptyOnlyAtStart) :
    g.removeNonProductive.EmptyOnlyAtStart where
  eq_start hnil := h.eq_start (mem_alternatives_removeNonProductive_iff.1 hnil).1
  nonempty {w} hw hne := by
    have hw := h.nonempty (expands_removeNonProductive_iff.1 hw) hne
    refine (restrict_productive And.left hw).mono fun ⟨⟨hrhs, hne⟩, hs⟩ => ⟨?_, hne⟩
    exact mem_alternatives_removeNonProductive_iff.2 ⟨hrhs, hs⟩

end Chomsky.Grammar
