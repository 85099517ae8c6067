import Chomsky.Proofs.Grammar.Roots

/-! # Grammars in which every nonterminal has an alternative

A trim grammar for a nonempty language is of this kind (`Trim.filled`), and it stays so when it is
made binary (`Filled.binarizeWith`). If the language is empty, the start symbol is left without
alternatives, and no other nonterminal remains (`Trim.alternatives_start_eq_nil`).
-/

namespace Chomsky.Grammar

open Relation (ReflTransGen TransGen)

variable {g s b : Grammar} {t : SymbolTable} {start lhs a : SymbolId} {ps : Productions}
  {suffix : String} {names : NormalFormNames} {v : Variables} {rhs w : Form}

/-- Every left-hand side and every nonterminal of a right-hand side has an alternative. -/
structure Filled (g : Grammar) : Prop where
  key : ∀ lhs ∈ g.productions.keys, ∃ rhs, rhs ∈ g.alternatives lhs
  right : ∀ a, g.occursOnRight a → g.isTerminal a ∨ ∃ rhs, rhs ∈ g.alternatives a

theorem Consistent.exists_mem_alternatives_start (hg : g.Consistent)
    (hw : g.Expands [g.start] w) : ∃ rhs, rhs ∈ g.alternatives g.start :=
  exists_mem_alternatives hg.not_isTerminal_start hw

theorem Trim.filled (h : g.Trim) (hg : g.Consistent) (hw : g.Expands [g.start] w) : g.Filled := by
  have hright : ∀ a, g.occursOnRight a → g.isTerminal a ∨ ∃ rhs, rhs ∈ g.alternatives a := by
    intro a ha
    obtain ⟨lhs, rhs, hrhs, hmem⟩ := occursOnRight_iff.1 ha
    obtain ⟨v, hv⟩ := h.productive hrhs a hmem
    exact or_iff_not_imp_left.2 fun hterminal => exists_mem_alternatives hterminal hv
  refine ⟨fun lhs hlhs => ?_, hright⟩
  have hterminal := hg.not_isTerminal_of_mem (hg.key_mem lhs hlhs)
  rcases Relation.reflTransGen_iff_eq_or_transGen.1 (h.reached lhs hlhs) with rfl | hchain
  · exact hg.exists_mem_alternatives_start hw
  · obtain ⟨lhs', -, rhs, hrhs, hmem⟩ := TransGen.tail'_iff.1 hchain
    exact (hright lhs (occursOnRight_iff.2 ⟨lhs', rhs, hrhs, hmem⟩)).resolve_left hterminal

theorem Trim.exists_mem_separateStart (h : g.Trim) (hempty : g.EmptyOnlyAtStart)
    (hg : g.Consistent) (hseparate : g.separateStart suffix = .ok (t, start, ps))
    (hrhs : rhs ∈ g.alternatives lhs) : ∃ rhs, rhs ∈ ps.alternatives lhs := by
  have hsep := separates_of_separateStart hg hseparate
  by_cases hnil : rhs = []
  · subst hnil
    obtain rfl := hempty.eq_start hrhs
    rcases start_eq_or_occursOnRight hseparate with rfl | hoccurs
    · exact ⟨[], hsep.start_mem hrhs⟩
    · obtain ⟨lhs, rhs, hrhs, hmem⟩ := occursOnRight_iff.1 hoccurs
      have hlhs := h.reached lhs (Productions.mem_keys_of_mem_alternatives hrhs)
      obtain ⟨a, ⟨rhs', hrhs', ha⟩, -⟩ := TransGen.head'_iff.1 (.tail' hlhs ⟨rhs, hrhs, hmem⟩)
      exact ⟨rhs', hsep.own_mem hrhs' (List.ne_nil_of_mem ha)⟩
  · exact ⟨rhs, hsep.own_mem hrhs hnil⟩

theorem Filled.separateStart (h : g.Filled) (htrim : g.Trim) (hempty : g.EmptyOnlyAtStart)
    (hg : g.Consistent) (hseparate : g.separateStart suffix = .ok (t, start, ps))
    (hw : g.Expands [g.start] w) : (ofProductions t start ps).Filled := by
  have hsep := separates_of_separateStart hg hseparate
  have hkept : ∀ {lhs}, (∃ rhs, rhs ∈ g.alternatives lhs) → ∃ rhs, rhs ∈ ps.alternatives lhs :=
    fun ⟨rhs, hrhs⟩ => htrim.exists_mem_separateStart hempty hg hseparate hrhs
  constructor
  case key =>
    intro lhs hlhs
    rcases mem_keys_of_separateStart hg hseparate hlhs with rfl | hlhs
    · obtain ⟨rhs, hrhs⟩ := hg.exists_mem_alternatives_start hw
      exact ⟨rhs, hsep.start_mem hrhs⟩
    · exact hkept (h.key lhs hlhs)
  case right =>
    intro a ha
    rw [hsep.isTerminal_ofProductions]
    exact (h.right a (hsep.occursOnRight ha)).imp_right hkept

theorem Binarization.filled (h : Binarization s b v) (hs : s.Filled) : b.Filled := by
  have hkept : ∀ {lhs}, (∃ rhs, rhs ∈ s.alternatives lhs) → ∃ rhs, rhs ∈ b.alternatives lhs := by
    rintro lhs ⟨rhs, hrhs⟩
    obtain ⟨rhs', hrhs', -⟩ := h.forth hrhs
    exact ⟨rhs', hrhs'⟩
  constructor
  case key =>
    intro lhs hlhs
    rcases h.key hlhs with hlhs | ⟨rhs, hdef⟩
    · exact hkept (hs.key lhs hlhs)
    · exact ⟨rhs, h.definition hdef⟩
  case right =>
    intro a ha
    obtain ⟨lhs, rhs, hrhs, ha⟩ := occursOnRight_iff.1 ha
    obtain ⟨f, hreads, hused⟩ := h.exists_reads ⟨rhs, hrhs, ha⟩
    rw [h.isTerminal_eq]
    cases hreads with
    | terminal _ _ => exact (hs.right a (hused a List.mem_cons_self)).imp_right hkept
    | expand hdef _ _ => exact Or.inr ⟨_, h.definition hdef⟩

theorem Filled.binarizeWith (h : g.Filled) (htrim : g.Trim) (hempty : g.EmptyOnlyAtStart)
    (hg : g.Consistent) (hb : g.binarizeWith names = .ok b) (hw : g.Expands [g.start] w) :
    b.Filled := by
  obtain ⟨t, start, ps, entries, v, hseparate, hentries, rfl⟩ := binarizeWith_eq_ok hb
  have hsep := separates_of_separateStart hg hseparate
  exact (hsep.binarization hentries).filled (h.separateStart htrim hempty hg hseparate hw)

section Empty

variable (h : g.Trim) (hw : ¬∃ w, g.Expands [g.start] w)
include h hw

theorem Trim.alternatives_start_eq_nil : g.alternatives g.start = [] := by
  refine List.eq_nil_iff_forall_not_mem.2 fun rhs hrhs => hw ?_
  obtain ⟨w, hrhs'⟩ := exists_expands_of_forall (h.productive hrhs)
  exact ⟨w, .of_rule hrhs hrhs'⟩

theorem Trim.alternatives_start_binarizeWith (hg : g.Consistent)
    (hb : g.binarizeWith names = .ok b) : b.alternatives b.start = [] := by
  obtain ⟨t, start, ps, entries, v, hseparate, hentries, rfl⟩ := binarizeWith_eq_ok hb
  have hsep := separates_of_separateStart hg hseparate
  have hbin := hsep.binarization hentries
  have hnone : ∀ rhs, rhs ∉ g.alternatives g.start := by
    simp [h.alternatives_start_eq_nil hw]
  refine List.eq_nil_iff_forall_not_mem.2 fun rhs' hrhs' => ?_
  rcases hbin.back hrhs' with hdef | ⟨rhs, hrhs, -⟩
  · have hlt := SymbolTable.lt_size_of_isNonterminal hsep.nonterminal
    exact Nat.not_le.2 hlt (hbin.invariant.lhs hdef).1
  · rcases hsep.of_mem hrhs with ⟨-, hrhs⟩ | ⟨hne, -, -⟩
    · exact hnone rhs hrhs
    · exact hne rfl

end Empty

end Chomsky.Grammar
