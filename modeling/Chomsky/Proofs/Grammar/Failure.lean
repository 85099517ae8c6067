import Chomsky.Proofs.Grammar.Erasure
import Chomsky.Proofs.Grammar.NewVariables
import Chomsky.Proofs.Grammar.UnitCycle
import Chomsky.Proofs.Obtainable
import Mathlib

/-! # When normalization fails

Only a cycle of unit productions makes normalization fail. It is a cycle of derivations of single
nonterminals from each other, since these become unit productions without empty alternatives.
-/

namespace Chomsky.Grammar

open Relation (ReflTransGen TransGen)

variable {g : Grammar} {names : NormalFormNames} {a b : SymbolId} {e : LanguageError}

theorem not_isBlank_stem : ∀ c ∈ ({} : NormalFormNames).stem.toList, ¬Text.isBlank c := by
  simp [Text.isBlank]

theorem not_isBlank_startSuffix :
    ∀ c ∈ ({} : NormalFormNames).startSuffix.toList, ¬Text.isBlank c := by
  simp [Text.isBlank]

section Normalize

variable (hg : g.Consistent) (hstem : ∀ c ∈ names.stem.toList, ¬Text.isBlank c)
  (hsuffix : ∀ c ∈ names.startSuffix.toList, ¬Text.isBlank c)
include hg hstem hsuffix

theorem normalizeWith_eq_error_iff :
    g.normalizeWith names = .error e ↔ g.eliminateEpsilon.eliminateUnits = .error e := by
  refine bind_eq_error_iff.trans (or_iff_left ?_)
  rintro ⟨u, hu, h⟩
  have hu := hg.eliminateEpsilon.eliminateUnits hu
  obtain ⟨b, hb⟩ := hu.trimmed.exists_binarizeWith hstem hsuffix
  cases hb.symm.trans h

theorem exists_normalizeWith_eq_error_iff : (∃ e, g.normalizeWith names = .error e) ↔
    ∃ a b, a ≠ b ∧ ReflTransGen g.ErasingStep a b ∧ ReflTransGen g.ErasingStep b a := by
  simp only [normalizeWith_eq_error_iff hg hstem hsuffix]
  rw [hg.eliminateEpsilon.exists_eliminateUnits_eq_error_iff, exists_transGen_unitTargets_iff]

end Normalize

theorem Consistent.mem_nonterminals_of_chain (hg : g.Consistent) (hne : a ≠ b)
    (h : ReflTransGen g.ErasingStep a b) : a ∈ g.nonterminals := by
  cases h using ReflTransGen.head_induction_on with
  | refl => exact absurd rfl hne
  | head hstep =>
    obtain ⟨⟨rhs, hrhs, -⟩, -⟩ := erasingStep_iff.1 hstep
    exact hg.key_mem a (Productions.mem_keys_of_mem_alternatives hrhs)

/-- Nonterminals that derive each other alone are on a cycle of unit steps. -/
theorem Consistent.exists_cycle_iff (hg : g.Consistent) :
    (∃ a b, a ≠ b ∧ ReflTransGen g.ErasingStep a b ∧ ReflTransGen g.ErasingStep b a) ↔
      ∃ a ∈ g.nonterminals, ∃ b ∈ g.nonterminals, a ≠ b ∧ TransGen g.Yields [a] [b] ∧
        TransGen g.Yields [b] [a] := by
  have hderives : ∀ {a b}, a ≠ b → b ∈ g.nonterminals →
      (TransGen g.Yields [a] [b] ↔ ReflTransGen g.ErasingStep a b) := by
    intro a b hne hb
    rw [transGen_yields_iff (by simpa using hne),
      derives_singleton_iff hg (hg.not_isTerminal_of_mem hb)]
  constructor
  · rintro ⟨a, b, hne, hab, hba⟩
    have ha := hg.mem_nonterminals_of_chain hne hab
    have hb := hg.mem_nonterminals_of_chain hne.symm hba
    exact ⟨a, ha, b, hb, hne, (hderives hne hb).2 hab, (hderives hne.symm ha).2 hba⟩
  · rintro ⟨a, ha, b, hb, hne, hab, hba⟩
    exact ⟨a, b, hne, (hderives hne hb).1 hab, (hderives hne.symm ha).1 hba⟩

/-- Normalization fails if and only if two nonterminals derive each other alone, and then it
reports a cycle of unit productions. -/
theorem normalizeWith_fails_iff (hg : g.Obtainable)
    (hstem : ∀ c ∈ names.stem.toList, ¬Text.isBlank c)
    (hsuffix : ∀ c ∈ names.startSuffix.toList, ¬Text.isBlank c) :
    ((∃ e, g.normalizeWith names = .error e) ↔
      ∃ a ∈ g.nonterminals, ∃ b ∈ g.nonterminals, a ≠ b ∧ TransGen g.Yields [a] [b] ∧
        TransGen g.Yields [b] [a]) ∧
      ∀ e, g.normalizeWith names = .error e → ∃ cycle, e = .unitCycle cycle := by
  have hc := hg.consistent
  constructor
  · rw [exists_normalizeWith_eq_error_iff hc hstem hsuffix, hc.exists_cycle_iff]
  · intro e h
    rw [normalizeWith_eq_error_iff hc hstem hsuffix] at h
    obtain ⟨cycle, -, rfl⟩ := hc.eliminateEpsilon.eliminateUnits_eq_error h
    exact ⟨_, rfl⟩

/-- The cycle goes through a right-hand side of which the second symbol vanishes. -/
theorem normalizeWith_hidden : ((Grammar.parse "S -> A B | a\nA -> S\nB -> ε").map fun g =>
    g.normalizeWith {}) = .ok (.error (.unitCycle ["S", "A", "S"])) := by
  decide +kernel

theorem normalizeWith_fails_iff_hidden : ∃ g,
    Grammar.parse "S -> A B | a\nA -> S\nB -> ε" = .ok g ∧
      ∃ a ∈ g.nonterminals, ∃ b ∈ g.nonterminals, a ≠ b ∧ TransGen g.Yields [a] [b] ∧
        TransGen g.Yields [b] [a] := by
  obtain ⟨g, hg, herror⟩ := map_eq_ok_iff.1 normalizeWith_hidden
  obtain ⟨hiff, -⟩ := normalizeWith_fails_iff (.parse hg) not_isBlank_stem not_isBlank_startSuffix
  exact ⟨g, hg, hiff.1 ⟨_, herror⟩⟩

end Chomsky.Grammar
