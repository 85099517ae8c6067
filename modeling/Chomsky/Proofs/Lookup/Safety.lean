import Chomsky.Proofs.Automaton.Language
import Chomsky.Proofs.Lookup.Minimal

/-! # No look-up fails

All automata that can be obtained are well formed. Drawing, determinizing and minimizing them
therefore looks nothing up that is not there.
-/

namespace Chomsky.Automaton

variable {a : Automaton}

theorem mapError_rejected_ne {α : Type} (x : Except LanguageError α) :
    x.mapError Fault.rejected ≠ .error .missing := by
  cases x <;> exact nofun

/-- An automaton that can be obtained is well formed. With all their look-ups, the algorithms do on
it what they do without them, and no look-up fails. -/
theorem lookups_spec (h : a.Obtainable) :
    a.WellFormed ∧ a.checkedGraph = .ok a.toGraph ∧
      a.checkedSubsetConstruction = a.subsetConstruction.mapError .rejected ∧
      a.checkedMinimize = a.minimize.mapError .rejected ∧
      a.checkedSubsetConstruction ≠ .error .missing ∧ a.checkedMinimize ≠ .error .missing := by
  have hwf := h.wellFormed
  have hsubsets := hwf.checkedSubsetConstruction_eq
  have hminimize := hwf.checkedMinimize_eq
  refine ⟨hwf, hwf.checkedGraph_eq, hsubsets, hminimize, ?_, ?_⟩
  · exact hsubsets ▸ mapError_rejected_ne _
  · exact hminimize ▸ mapError_rejected_ne _

theorem lookups_spec_endsInA : ∃ a d, endsInA.build = .ok a ∧ a.subsetConstruction = .ok d ∧
    a.WellFormed ∧ a.checkedGraph = .ok a.toGraph ∧ a.checkedSubsetConstruction = .ok d ∧
      d.checkedMinimize = d.minimize.mapError .rejected := by
  obtain ⟨a, ha, hnames⟩ := map_eq_ok_iff.1 names_endsInA
  obtain ⟨d, hd⟩ := exists_subsetConstruction (a := a) (hnames ▸ by decide)
  obtain ⟨hwf, hgraph, hsubsets, -⟩ := lookups_spec (.build ha)
  obtain ⟨-, -, -, hminimize, -⟩ := lookups_spec (.subsetConstruction (.build ha) hd)
  rw [hd] at hsubsets
  exact ⟨a, d, ha, hd, hwf, hgraph, hsubsets, hminimize⟩

end Chomsky.Automaton
