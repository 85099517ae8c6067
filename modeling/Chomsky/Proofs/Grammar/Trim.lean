import Chomsky.Proofs.Grammar.Binary
import Chomsky.Proofs.Grammar.Useful

/-! # Trim grammars

Without useless symbols every left-hand side is reached from the start symbol, and every symbol of a
right-hand side expands to a word (`trim_removeUnreachable`). A start symbol of its own preserves
the former (`Trim.reached_separateStart`), but the latter only if there is a nonempty word
(`Trim.productive_separates`).
-/

namespace Chomsky.Grammar

open Relation (ReflTransGen TransGen)

variable {g : Grammar} {t : SymbolTable} {a b s start lhs : SymbolId} {ps : Productions}
  {u v w rhs : Form} {suffix : String}

def Mentions (g : Grammar) (a b : SymbolId) : Prop := ∃ rhs ∈ g.alternatives a, b ∈ rhs

theorem mem_reachable_iff (hg : g.Consistent) :
    s ∈ g.reachable ↔ ReflTransGen (fun a b => b ∈ g.mentions a) g.start s := by
  rw [reachable_eq]
  refine mem_explore_iff (List.range g.symbols.size) (fun a _ b hb => ?_) ?_ ?_
  · obtain ⟨⟨rhs, hrhs, hb⟩, -⟩ := mem_mentions_iff.1 hb
    exact List.mem_range.2 (hg.productions_over.symbol_lt hrhs b hb)
  · exact List.mem_range.2 hg.start_lt
  · rw [List.length_range]
    exact Nat.lt_succ_self _

theorem exists_derives_of_mentions (h : ReflTransGen g.Mentions a b) :
    ∃ u v, g.Derives [a] (u ++ b :: v) := by
  induction h with
  | refl => exact ⟨[], [], .refl _⟩
  | tail _ hmentions ih =>
    obtain ⟨u, v, hd⟩ := ih
    obtain ⟨rhs, hrhs, hmem⟩ := hmentions
    obtain ⟨x, y, rfl⟩ := List.append_of_mem hmem
    refine ⟨u ++ x, y ++ v, ?_⟩
    have hstep := hd.tail (.expand u v (mem_rules.2 hrhs))
    simpa using hstep

/-- Without symbols that no derivation of a word can use, but for the start symbol. -/
structure Trim (g : Grammar) : Prop where
  reached : ∀ lhs ∈ g.productions.keys, ReflTransGen g.Mentions g.start lhs
  productive : ∀ {lhs rhs}, rhs ∈ g.alternatives lhs → ∀ s ∈ rhs, ∃ w, g.Expands [s] w

theorem mem_reachable_of_mem_keys (h : lhs ∈ g.removeUnreachable.productions.keys) :
    lhs ∈ g.reachable := by
  obtain ⟨alts, hget⟩ := OrderedMap.mem_keys_iff.1 h
  exact of_decide_eq_true (OrderedMap.get?_filter_eq_some_iff.1 hget).2

theorem reached_removeUnreachable (hg : g.Consistent)
    (h : lhs ∈ g.removeUnreachable.productions.keys) :
    ReflTransGen g.removeUnreachable.Mentions g.start lhs := by
  have hchain := (mem_reachable_iff hg).1 (mem_reachable_of_mem_keys h)
  clear h
  induction hchain with
  | refl => exact .refl
  | tail hchain hb ih =>
    obtain ⟨⟨rhs, hrhs, hb⟩, -⟩ := mem_mentions_iff.1 hb
    have hmem := (mem_reachable_iff hg).2 hchain
    exact ih.tail ⟨rhs, mem_alternatives_removeUnreachable_iff.2 ⟨hmem, hrhs⟩, hb⟩

/-- Symbols that are not productive are removed first, since others may become unreachable. -/
theorem trim_removeUnreachable (hg : g.Consistent) :
    g.removeNonProductive.removeUnreachable.Trim where
  reached _ hlhs := reached_removeUnreachable hg.removeNonProductive hlhs
  productive {lhs rhs} hrhs s hs := by
    obtain ⟨hlhs, hrhs⟩ := mem_alternatives_removeUnreachable_iff.1 hrhs
    have hproductive := (mem_alternatives_removeNonProductive_iff.1 hrhs).2 s hs
    by_cases hterminal : g.isTerminal s
    · exact ⟨[s], .terminal hterminal .nil⟩
    · obtain ⟨w, hw⟩ := exists_expands_of_mem_productive (hproductive.resolve_left hterminal)
      refine ⟨w, expands_removeUnreachable hg.removeNonProductive ?_
        (expands_removeNonProductive_iff.2 hw)⟩
      have hreachable := hg.removeNonProductive.reachable_closed hlhs hrhs hs hterminal
      exact List.forall_mem_singleton.2 (Or.inr hreachable)

theorem exists_expands_of_forall (h : ∀ s ∈ u, ∃ w, g.Expands [s] w) : ∃ w, g.Expands u w := by
  induction u with
  | nil => exact ⟨[], .nil⟩
  | cons s u ih =>
    obtain ⟨⟨v, hv⟩, hu⟩ := List.forall_mem_cons.1 h
    obtain ⟨w, hw⟩ := ih hu
    exact ⟨v ++ w, hv.append hw⟩

namespace Trim

variable (h : g.Trim)
include h

/-- What a mentioned symbol expands to is a part of what the symbol before expands to. -/
theorem exists_expands_of_reached (hchain : ReflTransGen g.Mentions a b) (hw : g.Expands [b] w) :
    ∃ x y, g.Expands [a] (x ++ w ++ y) := by
  induction hchain using ReflTransGen.head_induction_on with
  | refl => exact ⟨[], [], by simpa using hw⟩
  | head hmentions _ ih =>
    obtain ⟨rhs, hrhs, hmem⟩ := hmentions
    obtain ⟨x, y, hxy⟩ := ih
    obtain ⟨p, q, rfl⟩ := List.append_of_mem hmem
    have hproductive := List.forall_mem_append.1 (h.productive hrhs)
    obtain ⟨p', hp⟩ := exists_expands_of_forall hproductive.1
    obtain ⟨q', hq⟩ := exists_expands_of_forall (List.forall_mem_cons.1 hproductive.2).2
    refine ⟨p' ++ x, y ++ q', .of_rule hrhs ?_⟩
    have hrhs := hp.append (hxy.append (x := q) hq)
    simpa using hrhs

theorem exists_word_of_occursOnRight (ha : g.isTerminal a) (hused : g.occursOnRight a) :
    ∃ w, a ∈ w ∧ g.Expands [g.start] w := by
  obtain ⟨lhs, rhs, hrhs, hmem⟩ := occursOnRight_iff.1 hused
  have hlhs := h.reached lhs (Productions.mem_keys_of_mem_alternatives hrhs)
  obtain ⟨x, y, hw⟩ := h.exists_expands_of_reached (hlhs.tail ⟨rhs, hrhs, hmem⟩) (.terminal ha .nil)
  exact ⟨_, by simp, hw⟩

theorem exists_expandsNonempty (hempty : g.EmptyOnlyAtStart)
    (hstart : g.ExpandsNonempty [g.start] w) (hs : g.occursOnRight s) :
    ∃ w, g.ExpandsNonempty [s] w := by
  have hform : ∀ {u v}, g.Expands u v → ∃ v', g.ExpandsNonempty u v' := by
    intro u v hv
    induction hv with
    | nil => exact ⟨[], .nil⟩
    | terminal ha _ ih =>
      obtain ⟨v', hv'⟩ := ih
      exact ⟨_, .terminal ha hv'⟩
    | @expand lhs rhs _ _ _ hrule _ _ ih ih' =>
      obtain ⟨x, hx⟩ := ih
      obtain ⟨y, hy⟩ := ih'
      by_cases hnil : rhs = []
      · obtain rfl := hempty.eq_start (hnil ▸ hrule)
        exact ⟨w ++ y, hstart.append hy⟩
      · exact ⟨x ++ y, .expand ⟨hrule, hnil⟩ hx hy⟩
  obtain ⟨lhs, rhs, hrhs, hs⟩ := occursOnRight_iff.1 hs
  obtain ⟨v, hv⟩ := h.productive hrhs s hs
  exact hform hv

end Trim

theorem Separates.occursOnRight (hsep : Separates g t start ps)
    (ha : (ofProductions t start ps).occursOnRight a) : g.occursOnRight a := by
  obtain ⟨lhs, rhs, hrhs, ha⟩ := occursOnRight_iff.1 ha
  rcases hsep.of_mem hrhs with ⟨-, hrhs⟩ | ⟨-, hrhs, -⟩
  · exact occursOnRight_iff.2 ⟨_, rhs, hrhs, ha⟩
  · exact occursOnRight_iff.2 ⟨_, rhs, hrhs, ha⟩

theorem Separates.transGen_mentions (hsep : Separates g t start ps)
    (h : TransGen g.Mentions g.start a) : TransGen (ofProductions t start ps).Mentions start a := by
  induction h with
  | single hmentions =>
    obtain ⟨rhs, hrhs, hmem⟩ := hmentions
    exact .single ⟨rhs, hsep.start_mem hrhs, hmem⟩
  | tail _ hmentions ih =>
    obtain ⟨rhs, hrhs, hmem⟩ := hmentions
    exact ih.tail ⟨rhs, hsep.own_mem hrhs (List.ne_nil_of_mem hmem), hmem⟩

theorem Trim.reached_separateStart (h : g.Trim) (hg : g.Consistent)
    (hseparate : g.separateStart suffix = .ok (t, start, ps)) (hlhs : lhs ∈ ps.keys) :
    ReflTransGen (ofProductions t start ps).Mentions start lhs := by
  have hsep := separates_of_separateStart hg hseparate
  have hnew : TransGen g.Mentions g.start lhs →
      ReflTransGen (ofProductions t start ps).Mentions start lhs := fun hchain =>
    (hsep.transGen_mentions hchain).to_reflTransGen
  rcases mem_keys_of_separateStart hg hseparate hlhs with rfl | hkey
  · exact .refl
  · rcases Relation.reflTransGen_iff_eq_or_transGen.1 (h.reached lhs hkey) with rfl | hchain
    · rcases start_eq_or_occursOnRight hseparate with rfl | hoccurs
      · exact .refl
      · obtain ⟨lhs, rhs, hrhs, hmem⟩ := occursOnRight_iff.1 hoccurs
        have hlhs := h.reached lhs (Productions.mem_keys_of_mem_alternatives hrhs)
        exact hnew (.tail' hlhs ⟨rhs, hrhs, hmem⟩)
    · exact hnew hchain

/-- The symbols in use stay productive, because a nonempty word replaces the empty one. -/
theorem Trim.productive_separates (h : g.Trim) (hempty : g.EmptyOnlyAtStart)
    (hsep : Separates g t start ps) (hw : g.Expands [g.start] w) (hne : w ≠ [])
    (hs : (ofProductions t start ps).occursOnRight s) :
    ∃ w, (ofProductions t start ps).Expands [s] w := by
  obtain ⟨v, hv⟩ :=
    h.exists_expandsNonempty hempty (hempty.nonempty hw hne) (hsep.occursOnRight hs)
  exact ⟨v, hsep.expandsNonempty hv⟩

end Chomsky.Grammar
