import Chomsky.Proofs.Obtainable
import Mathlib

/-! # Normal forms and their languages

What normalization yields from the grammars that can be obtained: productions of the shapes of the
normal form only, and the same words.
-/

namespace Chomsky.Grammar

variable {g n : Grammar} {names : NormalFormNames} {lhs : SymbolId} {rhs : Form} {w : List String}

/-- The shapes of the normal form: a terminal, two nonterminals, or nothing, this only for a start
symbol that is on no right-hand side. -/
theorem isNormal_iff : g.isNormal lhs rhs ↔
    (∃ a, rhs = [a] ∧ g.isTerminal a) ∨
    (∃ b c, rhs = [b, c] ∧ g.symbols.isNonterminal b ∧ g.symbols.isNonterminal c) ∨
    rhs = [] ∧ lhs = g.start ∧ ∀ lhs', ∀ rhs' ∈ g.alternatives lhs', g.start ∉ rhs' := by
  have hright : ¬g.occursOnRight g.start ↔
      ∀ lhs', ∀ rhs' ∈ g.alternatives lhs', g.start ∉ rhs' := by
    rw [occursOnRight_iff]
    constructor
    · intro h lhs' rhs' hrhs hstart
      exact h ⟨lhs', rhs', hrhs, hstart⟩
    · rintro h ⟨lhs', rhs', hrhs, hstart⟩
      exact h lhs' rhs' hrhs hstart
  rw [← hright]
  match rhs with
  | [] => simp [isNormal]
  | [a] => simp [isNormal]
  | [b, c] => simp [isNormal]
  | _ :: _ :: _ :: _ => simp [isNormal]

theorem generates_normalizeWith_iff (hg : g.Consistent) (h : g.normalizeWith names = .ok n) :
    n.Generates w ↔ g.Generates w := by
  obtain ⟨hext, hterminal⟩ := symbols_normalizeWith hg h
  exact generates_iff_of_expands (fun a ha => name?_eq_of_extends hext hterminal ha) fun word =>
    expands_normalizeWith_iff hg h

/-- Normalization yields a grammar in normal form that generates the same words. -/
theorem normalizeWith_spec (hg : g.Obtainable) (h : g.normalizeWith names = .ok n) :
    n.violations = [] ∧
      (∀ lhs, ∀ rhs ∈ n.alternatives lhs,
        (∃ a, rhs = [a] ∧ n.isTerminal a) ∨
        (∃ b c, rhs = [b, c] ∧ n.symbols.isNonterminal b ∧ n.symbols.isNonterminal c) ∨
        rhs = [] ∧ lhs = n.start ∧ ∀ lhs', ∀ rhs' ∈ n.alternatives lhs', n.start ∉ rhs') ∧
      ∀ w, n.Generates w ↔ g.Generates w := by
  have hnormal : ∀ lhs, ∀ rhs ∈ n.alternatives lhs, n.isNormal lhs rhs := fun lhs rhs hrhs =>
    isNormal_normalizeWith hg.consistent h hrhs
  refine ⟨List.isEmpty_iff.1 (isChomskyNormalForm_iff.2 hnormal), fun lhs rhs hrhs => ?_,
    fun w => ?_⟩
  · exact isNormal_iff.1 (hnormal lhs rhs hrhs)
  · exact generates_normalizeWith_iff hg.consistent h

theorem start_normalize_brackets : ((Grammar.parse "S -> a S b | ε").bind fun g =>
    (g.normalizeWith {}).map fun n => n.name n.start) = .ok "S'" := by
  decide +kernel

theorem normalizeWith_spec_brackets : ∃ g n, Grammar.parse "S -> a S b | ε" = .ok g ∧
    g.normalizeWith {} = .ok n ∧ n.violations = [] ∧ ∀ w, n.Generates w ↔ g.Generates w := by
  obtain ⟨g, hg, hstart⟩ := bind_eq_ok_iff.1 start_normalize_brackets
  obtain ⟨n, hn, -⟩ := map_eq_ok_iff.1 hstart
  obtain ⟨hviolations, -, hgenerates⟩ := normalizeWith_spec (.parse hg) hn
  exact ⟨g, n, hg, hn, hviolations, hgenerates⟩

end Chomsky.Grammar
