import Chomsky.Proofs.Grammar.Roots
import Chomsky.Proofs.Obtainable
import Mathlib

/-! # Nonterminals of a normal form

All nonterminals of a normal form are reached from its start symbol. But the old start symbol loses
its empty alternative last, so that the others derive words only if the language has a nonempty one.
-/

namespace Chomsky.Grammar

open Relation (ReflTransGen TransGen)

variable {g n : Grammar} {names : NormalFormNames} {a lhs : SymbolId} {u w : Form}

theorem map_name?_eq_map_name (h : ∀ a ∈ w, g.isTerminal a) :
    w.map g.symbols.name? = (w.map g.name).map some := by
  rw [List.map_map]
  exact List.map_congr_left fun a ha =>
    SymbolTable.name?_eq_some_name (SymbolTable.lt_size_of_isTerminal (h a ha))

theorem exists_generatesFrom_iff : (∃ w, g.GeneratesFrom a w) ↔ ∃ w, g.Expands [a] w := by
  simp only [generatesFrom_iff]
  constructor
  · rintro ⟨-, w, hw, -⟩
    exact ⟨w, hw⟩
  · rintro ⟨w, hw⟩
    exact ⟨_, w, hw, map_name?_eq_map_name hw.forall_terminal⟩

theorem exists_generates_nonempty_iff :
    (∃ w, w ≠ [] ∧ g.Generates w) ↔ ∃ w, w ≠ [] ∧ g.Expands [g.start] w := by
  simp only [Generates, generatesFrom_iff]
  constructor
  · rintro ⟨w, hne, word, hword, hnames⟩
    refine ⟨word, ?_, hword⟩
    rintro rfl
    exact hne (List.map_eq_nil_iff.1 hnames.symm)
  · rintro ⟨w, hne, hw⟩
    exact ⟨w.map g.name, by simpa using hne, w, hw, map_name?_eq_map_name hw.forall_terminal⟩

theorem ne_nil_of_isNormal (hnormal : ∀ {lhs}, [] ∈ g.alternatives lhs → g.isNormal lhs [])
    (ha : a ≠ g.start) (hw : g.Expands [a] w) : w ≠ [] := by
  simp only [isNormal, Bool.and_eq_true, beq_iff_eq, Bool.not_eq_true'] at hnormal
  rintro rfl
  by_cases hoccurs : g.occursOnRight g.start
  · have hnil : ∀ lhs, [] ∉ g.alternatives lhs := fun lhs hmem => by
      rw [(hnormal hmem).2] at hoccurs
      cases hoccurs
    cases hw.eq_nil hnil
  · have hother := hw.restrict (p := (· ≠ g.start)) (fun {lhs rhs} _ hrhs s hs heq => ?_)
      (List.forall_mem_singleton.2 ha)
    · have hnil : ∀ lhs, ¬(lhs ≠ g.start ∧ [] ∈ g.alternatives lhs) := fun lhs hlhs =>
        hlhs.1 (hnormal hlhs.2).1
      cases hother.eq_nil hnil
    · exact hoccurs (occursOnRight_iff.2 ⟨lhs, rhs, hrhs, heq ▸ hs⟩)

section Normalize

variable (hg : g.Consistent) (h : g.normalizeWith names = .ok n)
include hg h

/-- A normal form comes from a trim grammar for the same words. -/
theorem exists_binarization : ∃ s t start ps v, s.Consistent ∧ s.Trim ∧ s.EmptyOnlyAtStart ∧
    (∀ w, s.Expands [s.start] w ↔ g.Expands [g.start] w) ∧ Separates s t start ps ∧
    (∀ lhs ∈ ps.keys, ReflTransGen (ofProductions t start ps).Mentions start lhs) ∧
    Binarization (ofProductions t start ps) n v := by
  obtain ⟨u, hu, hn⟩ := normalizeWith_eq_ok h
  have hcu := hg.eliminateEpsilon.eliminateUnits hu
  have htrim : u.trimmed.Trim := trim_removeUnreachable hcu.removeUnreachable
  obtain ⟨t, start, ps, entries, v, hseparate, hentries, rfl⟩ := binarizeWith_eq_ok hn
  have hsep := separates_of_separateStart hcu.trimmed hseparate
  exact ⟨u.trimmed, t, start, ps, v, hcu.trimmed, htrim,
    .trimmed hcu (emptyOnlyAtStart_eliminateEpsilon.eliminateUnits hu),
    fun w => expands_start_trimmed_iff hg hu, hsep,
    fun lhs => htrim.reached_separateStart hcu.trimmed hseparate, hsep.binarization hentries⟩

theorem reached_normalizeWith (ha : a ∈ n.nonterminals) : ReflTransGen n.Mentions n.start a := by
  obtain ⟨s, t, start, ps, v, -, -, -, -, -, hreached, hbin⟩ := exists_binarization hg h
  exact hbin.reached hreached ha

theorem exists_expands_of_nonempty (ha : a ∈ n.nonterminals) (hstart : a ≠ n.start)
    (hw : g.Expands [g.start] w) (hne : w ≠ []) : ∃ w, n.Expands [a] w := by
  have hchain := Relation.reflTransGen_iff_eq_or_transGen.1 (reached_normalizeWith hg h ha)
  obtain ⟨lhs, -, hmentions⟩ := TransGen.tail'_iff.1 (hchain.resolve_left hstart)
  obtain ⟨s, t, start, ps, v, -, htrim, hempty, hiff, hsep, -, hbin⟩ := exists_binarization hg h
  refine hbin.productive (fun x hx => ?_) hmentions
  exact htrim.productive_separates hempty hsep ((hiff w).2 hw) hne hx

theorem exists_nonempty_of_expands (ha : a ∈ n.nonterminals) (hstart : a ≠ n.start)
    (hw : n.Expands [a] w) : ∃ w, w ≠ [] ∧ g.Expands [g.start] w := by
  have hne := ne_nil_of_isNormal (isNormal_normalizeWith hg h) hstart hw
  obtain ⟨x, hx⟩ := List.exists_mem_of_ne_nil w hne
  have hterminal := hw.forall_terminal x hx
  have hna := (consistent_normalizeWith hg h).nonterminal a ha
  obtain ⟨s, t, start, ps, v, -, htrim, -, hiff, hsep, -, hbin⟩ := exists_binarization hg h
  rcases hw.mem_or_exists_rule hx with hmem | ⟨lhs, rhs, hrhs, hmem⟩
  · rw [List.mem_singleton.1 hmem] at hterminal
    exact absurd hterminal (SymbolTable.not_isTerminal_of_isNonterminal hna)
  · have hused := hsep.occursOnRight (hbin.occursOnRight_of_mentions hterminal ⟨rhs, hrhs, hmem⟩)
    rw [hbin.isTerminal_eq, hsep.isTerminal_ofProductions] at hterminal
    obtain ⟨w', hx', hw'⟩ := htrim.exists_word_of_occursOnRight hterminal hused
    exact ⟨w', List.ne_nil_of_mem hx', (hiff w').1 hw'⟩

end Normalize

/-- Every nonterminal of a normal form other than the start symbol is reachable, and it derives a
word if and only if the language has a nonempty word. -/
theorem normalizeWith_nonterminals (hg : g.Obtainable) (h : g.normalizeWith names = .ok n) :
    ∀ a ∈ n.nonterminals, a ≠ n.start →
      (∃ u v, n.Derives [n.start] (u ++ a :: v)) ∧
      ((∃ w, n.GeneratesFrom a w) ↔ ∃ w, w ≠ [] ∧ g.Generates w) := by
  intro a ha hstart
  have hc := hg.consistent
  refine ⟨exists_derives_of_mentions (reached_normalizeWith hc h ha), ?_⟩
  rw [exists_generatesFrom_iff, exists_generates_nonempty_iff]
  constructor
  · rintro ⟨w, hw⟩
    exact exists_nonempty_of_expands hc h ha hstart hw
  · rintro ⟨w, hne, hw⟩
    exact exists_expands_of_nonempty hc h ha hstart hw hne

/-- The nonterminals other than the start symbol, and those of them that derive a word. -/
def others (g : Grammar) : List SymbolId × List SymbolId :=
  (g.nonterminals.toList.filter (· ≠ g.start), g.productive.toList.filter (· ≠ g.start))

theorem others_normalize : ((Grammar.parse "S -> S S | ε").bind fun g =>
    (g.normalizeWith {}).map others) = .ok ([0], []) := by
  decide +kernel

theorem exists_others_normalize : ∃ g n, Grammar.parse "S -> S S | ε" = .ok g ∧
    g.normalizeWith {} = .ok n ∧ 0 ∈ n.nonterminals ∧ 0 ≠ n.start ∧ 0 ∉ n.productive := by
  obtain ⟨g, hg, hothers⟩ := bind_eq_ok_iff.1 others_normalize
  obtain ⟨n, hn, heq⟩ := map_eq_ok_iff.1 hothers
  obtain ⟨hnonterminals, hproductive⟩ := Prod.mk.inj heq
  have hmem : 0 ∈ n.nonterminals.toList.filter (· ≠ n.start) := by
    rw [hnonterminals]
    exact List.mem_singleton.2 rfl
  obtain ⟨hmem, hne⟩ := List.mem_filter.1 hmem
  refine ⟨g, n, hg, hn, hmem, of_decide_eq_true hne, fun h => ?_⟩
  exact List.filter_eq_nil_iff.1 hproductive 0 h hne

theorem normalizeWith_nonterminals_squares : ∃ g n, Grammar.parse "S -> S S | ε" = .ok g ∧
    g.normalizeWith {} = .ok n ∧ (∃ u v, n.Derives [n.start] (u ++ 0 :: v)) ∧
      ((∃ w, n.GeneratesFrom 0 w) ↔ ∃ w, w ≠ [] ∧ g.Generates w) := by
  obtain ⟨g, n, hg, hn, hmem, hne, -⟩ := exists_others_normalize
  exact ⟨g, n, hg, hn, normalizeWith_nonterminals (.parse hg) hn 0 hmem hne⟩

/-- The old start symbol remains with alternatives that hold it, and derives no word. -/
theorem normalizeWith_not_productive : ∃ g n, Grammar.parse "S -> S S | ε" = .ok g ∧
    g.normalizeWith {} = .ok n ∧ ∃ a ∈ n.nonterminals, a ≠ n.start ∧
      ¬∃ w, n.GeneratesFrom a w := by
  obtain ⟨g, n, hg, hn, hmem, hne, hproductive⟩ := exists_others_normalize
  refine ⟨g, n, hg, hn, 0, hmem, hne, fun hw => ?_⟩
  obtain ⟨w, hw⟩ := exists_generatesFrom_iff.1 hw
  have hc := consistent_normalizeWith (Obtainable.parse hg).consistent hn
  exact (forall_mem_productive hw 0 List.mem_cons_self).elim
    (SymbolTable.not_isTerminal_of_isNonterminal (hc.nonterminal 0 hmem)) hproductive

end Chomsky.Grammar
