import Chomsky.Proofs.Grammar.Omission
import Chomsky.Proofs.Grammar.Productivity

/-! # What the analyses find

The nullable nonterminals are those that derive the empty word, the productive ones those that
derive a word of terminals, and the reachable ones those that occur in a form which the start symbol
derives. So saturation and exploration stop neither too early nor too late (`mem_analyses_iff`).
-/

namespace Chomsky.Grammar

variable {g : Grammar} {a : SymbolId} {w : Form}

namespace Consistent

variable (hg : g.Consistent)
include hg

theorem mem_nullable_iff_derives : a ∈ g.nullable ↔ a ∈ g.nonterminals ∧ g.Derives [a] [] := by
  refine mem_nullable_iff_vanishes.trans (iff_and_self.2 fun ha => ?_)
  exact hg.key_mem a (Productions.mem_keys_of_mem_closure (mem_nullable_iff_vanishes.2 ha))

theorem mem_productive_iff_generatesFrom :
    a ∈ g.productive ↔ a ∈ g.nonterminals ∧ ∃ names, g.GeneratesFrom a names := by
  rw [exists_generatesFrom_iff]
  constructor
  · intro ha
    have hkey := Productions.mem_keys_of_mem_closure ha
    exact ⟨hg.key_mem a hkey, exists_expands_of_mem_productive ha⟩
  · rintro ⟨ha, w, hw⟩
    have hmem := forall_mem_productive hw a List.mem_cons_self
    exact hmem.resolve_left (hg.not_isTerminal_of_mem ha)

theorem forall_mem_reachable (hd : g.Derives [g.start] w) :
    ∀ s ∈ w, g.isTerminal s ∨ s ∈ g.reachable := by
  induction hd with
  | refl => exact forall_mem_start
  | tail _ hy ih =>
    cases hy with
    | @expand x y lhs rhs hrule =>
      have hrhs := mem_rules.1 hrule
      obtain ⟨hx, hrest⟩ := List.forall_mem_append.1 ih
      obtain ⟨hlhs, hy⟩ := List.forall_mem_cons.1 hrest
      have hlhs := hlhs.resolve_left (hg.not_isTerminal_lhs hrhs)
      refine List.forall_mem_append.2 ⟨List.forall_mem_append.2 ⟨hx, fun s hs => ?_⟩, hy⟩
      exact or_iff_not_imp_left.2 (hg.reachable_closed hlhs hrhs hs)

theorem mem_reachable_iff_derives :
    a ∈ g.reachable ↔ a ∈ g.nonterminals ∧ ∃ u v, g.Derives [g.start] (u ++ a :: v) := by
  constructor
  · intro ha
    have hchain := (mem_reachable_iff hg).1 ha
    constructor
    · cases hchain with
      | refl => exact hg.start_mem
      | tail _ hmentions =>
        obtain ⟨⟨rhs, hrhs, hmem⟩, hterminal⟩ := mem_mentions_iff.1 hmentions
        exact (hg.symbol_mem hrhs a hmem).resolve_right fun h => hterminal (hg.terminal a h)
    · refine exists_derives_of_mentions (hchain.mono ?_ _ _)
      exact fun _ _ hmentions => (mem_mentions_iff.1 hmentions).1
  · rintro ⟨ha, u, v, hd⟩
    have hmem := hg.forall_mem_reachable hd a (List.mem_append_right u List.mem_cons_self)
    exact hmem.resolve_left (hg.not_isTerminal_of_mem ha)

end Consistent

/-- The three analyses find the nonterminals of which their names speak, and nothing else. The start
symbol is productive if and only if there is a word of the language. -/
theorem mem_analyses_iff (hg : g.Obtainable) :
    (∀ a, a ∈ g.nullable ↔ a ∈ g.nonterminals ∧ g.Derives [a] []) ∧
    (∀ a, a ∈ g.productive ↔ a ∈ g.nonterminals ∧ ∃ w, g.GeneratesFrom a w) ∧
    (∀ a, a ∈ g.reachable ↔ a ∈ g.nonterminals ∧ ∃ u v, g.Derives [g.start] (u ++ a :: v)) ∧
    (g.start ∈ g.productive ↔ ∃ w, g.Generates w) := by
  have hc := hg.consistent
  refine ⟨fun a => hc.mem_nullable_iff_derives, fun a => hc.mem_productive_iff_generatesFrom,
    fun a => hc.mem_reachable_iff_derives, ?_⟩
  rw [hc.mem_productive_iff_generatesFrom]
  exact and_iff_right hc.start_mem

/-- Every round finds one nonterminal more, the start symbol last. The left-hand side that comes
after all of them is no part of anything that the start symbol derives. -/
theorem analyses_upwards :
    ((Grammar.parse "S -> A\nA -> B A | B\nB -> C C\nC -> ε\nL -> L S").map fun g =>
      (g.nullable.toList.map g.name, decide (g.start ∈ g.nullable ∧ g.start ∈ g.productive),
        (g.nonterminals.toList.filter fun a => a ∉ g.productive ∧ a ∉ g.reachable).map g.name)) =
      .ok (["C", "B", "A", "S"], true, ["L"]) := by
  decide +kernel

theorem mem_analyses_iff_upwards : ∃ g,
    Grammar.parse "S -> A\nA -> B A | B\nB -> C C\nC -> ε\nL -> L S" = .ok g ∧
      g.Derives [g.start] [] ∧ (∃ w, g.Generates w) ∧
      ∃ l, g.name l = "L" ∧ (∀ w, ¬g.GeneratesFrom l w) ∧
        ∀ u v, ¬g.Derives [g.start] (u ++ l :: v) := by
  obtain ⟨g, hg, hfound⟩ := map_eq_ok_iff.1 analyses_upwards
  obtain ⟨hnullable, hproductive, hreachable, hgenerates⟩ := mem_analyses_iff (.parse hg)
  obtain ⟨hstart, hrest⟩ := Prod.mk.inj (Prod.mk.inj hfound).2
  obtain ⟨hempty, hword⟩ := of_decide_eq_true hstart
  obtain ⟨l, hl, hname⟩ := List.map_eq_singleton_iff.1 hrest
  obtain ⟨hmem, hout⟩ := List.mem_filter.1 (hl ▸ List.mem_singleton_self l)
  obtain ⟨hl, hl'⟩ := of_decide_eq_true hout
  refine ⟨g, hg, ((hnullable _).1 hempty).2, hgenerates.1 hword, l, hname, fun w hw => ?_,
    fun u v hd => ?_⟩
  · exact hl ((hproductive l).2 ⟨hmem, w, hw⟩)
  · exact hl' ((hreachable l).2 ⟨hmem, u, v, hd⟩)

end Chomsky.Grammar
