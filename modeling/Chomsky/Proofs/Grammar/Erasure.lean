import Chomsky.Proofs.Grammar.UnitFree

/-! # Derivations of single symbols

A symbol derives another one alone if the symbols next to it vanish. Without empty alternatives
these derivations are the chains of unit productions (`derives_singleton_iff`).
-/

namespace Chomsky

open Relation (ReflTransGen TransGen)

variable {nullable : OrderedSet SymbolId} {u v w : Form}

theorem self_mem_variants : u ∈ variants nullable u := by
  induction u with
  | nil => exact List.mem_singleton.2 rfl
  | cons s u ih => exact cons_mem_variants ih

theorem mem_variants_append_iff : w ∈ variants nullable (u ++ v) ↔
    ∃ x ∈ variants nullable u, ∃ y ∈ variants nullable v, w = x ++ y := by
  induction u generalizing w with
  | nil => simp [variants]
  | cons s u ih =>
    simp only [List.cons_append, mem_variants_cons_iff, ih]
    constructor
    · rintro ⟨_, ⟨x, hx, y, hy, rfl⟩, rfl | ⟨hs, rfl⟩⟩
      · exact ⟨s :: x, ⟨x, hx, Or.inl rfl⟩, y, hy, rfl⟩
      · exact ⟨x, ⟨x, hx, Or.inr ⟨hs, rfl⟩⟩, y, hy, rfl⟩
    · rintro ⟨_, ⟨x, hx, hcases⟩, y, hy, rfl⟩
      rcases hcases with rfl | ⟨hs, rfl⟩
      · exact ⟨x ++ y, ⟨x, hx, y, hy, rfl⟩, Or.inl rfl⟩
      · exact ⟨_, ⟨_, hx, y, hy, rfl⟩, Or.inr ⟨hs, rfl⟩⟩

namespace Grammar

variable {g : Grammar} {a b c : SymbolId}

theorem derives_iff_reflTransGen : g.Derives u v ↔ ReflTransGen g.Yields u v := by
  constructor
  · intro h
    induction h with
    | refl => exact .refl
    | tail _ hy ih => exact ih.tail hy
  · intro h
    induction h with
    | refl => exact .refl _
    | tail _ hy ih => exact ih.tail hy

theorem transGen_yields_iff (h : u ≠ v) : TransGen g.Yields u v ↔ g.Derives u v := by
  rw [derives_iff_reflTransGen, Relation.reflTransGen_iff_eq_or_transGen]
  exact ⟨Or.inr, fun huv => huv.resolve_left h.symm⟩

theorem derives_of_mem_variants (hv : v ∈ variants g.nullable u) : g.Derives u v := by
  induction u generalizing v with
  | nil =>
    rw [List.mem_singleton.1 hv]
    exact .refl []
  | cons s u ih =>
    obtain ⟨v', hv', rfl | ⟨hs, rfl⟩⟩ := mem_variants_cons_iff.1 hv
    · exact (ih hv').append_left [s]
    · exact (derives_of_expands (expands_nil_of_mem_nullable hs)).append (ih hv')

/-- A unit step after empty alternatives have been removed. -/
abbrev ErasingStep (g : Grammar) : SymbolId → SymbolId → Prop :=
  g.eliminateEpsilon.UnitStep g.eliminateEpsilon.productions

theorem erasingStep_iff : g.ErasingStep a b ↔
    (∃ rhs ∈ g.alternatives a, [b] ∈ variants g.nullable rhs) ∧ ¬g.isTerminal b := by
  refine and_congr_left fun _ => mem_alternatives_eliminateEpsilon_iff.trans ?_
  simp

theorem ErasingStep.derives (h : g.ErasingStep a b) : g.Derives [a] [b] := by
  obtain ⟨⟨rhs, hrhs, hvariant⟩, -⟩ := erasingStep_iff.1 h
  exact (derives_of_mem_alternatives hrhs).trans (derives_of_mem_variants hvariant)

theorem exists_erasingStep_of_yields (hy : g.Yields u v) (hb : [b] ∈ variants g.nullable v)
    (hterminal : ¬g.isTerminal b) :
    ∃ c, [c] ∈ variants g.nullable u ∧ (c = b ∨ g.ErasingStep c b) := by
  cases hy with
  | @expand x y lhs rhs hrule =>
    have hrhs := mem_rules.1 hrule
    obtain ⟨_, hpq, r, hr, heq⟩ := mem_variants_append_iff.1 hb
    obtain ⟨p, hp, q, hq, rfl⟩ := mem_variants_append_iff.1 hpq
    cases q with
    | nil =>
      have hlhs := nullable_closed hrhs (mem_nullable_of_nil_mem_variants hq)
      refine ⟨b, mem_variants_append_iff.2 ⟨p, hp, r, mem_variants_cons_of_mem hlhs hr, ?_⟩,
        Or.inl rfl⟩
      rw [heq, List.append_nil]
    | cons c q =>
      obtain ⟨rfl, rfl, rfl, rfl⟩ : p = [] ∧ c = b ∧ q = [] ∧ r = [] := by
        cases p <;> simp_all
      refine ⟨lhs, mem_variants_append_iff.2 ⟨[], hp, [lhs], cons_mem_variants hr, rfl⟩, Or.inr ?_⟩
      exact erasingStep_iff.2 ⟨⟨rhs, hrhs, hq⟩, hterminal⟩

section Consistent

variable (hg : g.Consistent)
include hg

theorem ErasingStep.not_isTerminal (h : g.ErasingStep a b) : ¬g.isTerminal a := by
  obtain ⟨⟨rhs, hrhs, -⟩, -⟩ := erasingStep_iff.1 h
  exact hg.not_isTerminal_lhs hrhs

theorem exists_chain_of_derives (hd : g.Derives u v) (hb : [b] ∈ variants g.nullable v)
    (hterminal : ¬g.isTerminal b) :
    ∃ c, [c] ∈ variants g.nullable u ∧ ReflTransGen g.ErasingStep c b := by
  induction hd generalizing b with
  | refl => exact ⟨b, hb, .refl⟩
  | tail _ hy ih =>
    obtain ⟨c, hc, rfl | hstep⟩ := exists_erasingStep_of_yields hy hb hterminal
    · exact ih hc hterminal
    · obtain ⟨d, hd, hchain⟩ := ih hc (hstep.not_isTerminal hg)
      exact ⟨d, hd, hchain.tail hstep⟩

/-- Symbols derive single nonterminals by chains of unit steps. -/
theorem derives_singleton_iff (hterminal : ¬g.isTerminal b) :
    g.Derives [a] [b] ↔ ReflTransGen g.ErasingStep a b := by
  constructor
  · intro hd
    obtain ⟨c, hc, hchain⟩ := exists_chain_of_derives hg hd self_mem_variants hterminal
    obtain ⟨v, hv, heq | ⟨-, heq⟩⟩ := mem_variants_cons_iff.1 hc
    · obtain ⟨rfl, -⟩ := List.cons.inj heq
      exact hchain
    · rw [List.mem_singleton.1 hv] at heq
      cases heq
  · intro hchain
    clear hterminal
    induction hchain with
    | refl => exact .refl _
    | tail _ hstep ih => exact ih.trans (ErasingStep.derives hstep)

end Consistent

end Grammar
end Chomsky
