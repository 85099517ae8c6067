import Chomsky.Grammar.NormalForm
import Chomsky.Proofs.Grammar.Binary
import Chomsky.Proofs.Grammar.UnitFree
import Chomsky.Proofs.Grammar.Useful

/-! # Normalization

Every stage keeps the words of the start symbol, because only the start symbol has the empty
alternative from the first stage on (`expands_normalizeWith_iff`). The binary grammar is in normal
form, because unit productions do not return (`isNormal_normalizeWith`).
-/

namespace Chomsky.Grammar

variable {g n s b u : Grammar} {lhs a : SymbolId} {rhs rhs' w : Form} {names : NormalFormNames}
  {v : Variables}

def UnitFree (g : Grammar) : Prop := ∀ lhs a, [a] ∈ g.alternatives lhs → g.isTerminal a

theorem unitFree_eliminateUnits (h : g.eliminateUnits = .ok u) : u.UnitFree := by
  intro lhs a hmem
  have hunit := ((mem_alternatives_eliminateUnits_iff h).1 hmem).1
  rw [isTerminal_eliminateUnits h]
  apply Decidable.byContradiction
  exact fun ha => unitTarget?_eq_none_iff.1 hunit ⟨a, rfl, ha⟩

theorem UnitFree.removeUnreachable (h : g.UnitFree) : g.removeUnreachable.UnitFree :=
  fun lhs a hmem => h lhs a (mem_alternatives_removeUnreachable_iff.1 hmem).2

theorem UnitFree.removeNonProductive (h : g.UnitFree) : g.removeNonProductive.UnitFree :=
  fun lhs a hmem => h lhs a (mem_alternatives_removeNonProductive_iff.1 hmem).1

namespace BinaryOf

variable (h : BinaryOf s b v)
include h

theorem not_occursOnRight_start (hs : s.Consistent) (hstart : ¬s.occursOnRight s.start) :
    ¬b.occursOnRight b.start := by
  have hlt := hs.start_lt
  have hbinary : ∀ {rhs}, Variables.IsBinary s.symbols (fun a => s.occursOnRight a) v.symbols rhs →
      s.start ∉ rhs := by
    rintro _ (⟨a, rfl, -, ha⟩ | ⟨c, d, rfl, hc, hd⟩) hmem
    · exact hstart (List.mem_singleton.1 hmem ▸ ha)
    · rcases List.mem_cons.1 hmem with rfl | hmem
      · exact hstart (hc.used hlt)
      · obtain rfl := List.mem_singleton.1 hmem
        exact hstart (hd.used hlt)
  rw [h.start, occursOnRight_iff]
  rintro ⟨lhs, rhs', hrhs', hmem⟩
  rcases h.back hrhs' with hdef | ⟨rhs, hrhs, hbinarizes⟩
  · exact hbinary (h.invariant.rhs hdef) hmem
  · rcases hbinarizes.shape with ⟨-, rfl⟩ | hshape
    · exact hstart (occursOnRight_iff.2 ⟨lhs, _, hrhs, hmem⟩)
    · exact hbinary (Or.inr hshape) hmem

theorem isNormal_of_isBinary
    (hrhs : Variables.IsBinary s.symbols (fun a => s.occursOnRight a) v.symbols rhs) :
    b.isNormal lhs rhs := by
  rw [← h.symbols] at hrhs
  rcases hrhs with ⟨a, rfl, ha, -⟩ | ⟨c, d, rfl, hc, hd⟩
  · exact ha
  · exact Bool.and_eq_true_iff.2 ⟨hc.nonterminal, hd.nonterminal⟩

theorem isNormal (hs : s.Consistent) (hstart : ¬s.occursOnRight s.start) (hunit : s.UnitFree)
    (hnil : ∀ {lhs}, [] ∈ s.alternatives lhs → lhs = s.start) (hmem : rhs' ∈ b.alternatives lhs) :
    b.isNormal lhs rhs' := by
  rcases h.back hmem with hdef | ⟨rhs, hrhs, hbinarizes⟩
  · exact h.isNormal_of_isBinary (h.invariant.rhs hdef)
  · rcases hbinarizes.shape with ⟨hshort, rfl⟩ | hshape
    · match rhs', hrhs, hshort with
      | [], hrhs, _ =>
        have hfree := h.not_occursOnRight_start hs hstart
        simp [Grammar.isNormal, hnil hrhs, h.start ▸ hfree, h.start]
      | [a], hrhs, _ =>
        show b.isTerminal a
        rw [h.isTerminal_eq]
        exact hunit lhs a hrhs
      | _ :: _ :: _, _, hshort => exact absurd hshort (by simp)
    · exact h.isNormal_of_isBinary (Or.inr hshape)

end BinaryOf

def trimmed (u : Grammar) : Grammar := u.removeUnreachable.removeNonProductive.removeUnreachable

theorem normalizeWith_eq_ok (h : g.normalizeWith names = .ok n) :
    ∃ u, g.eliminateEpsilon.eliminateUnits = .ok u ∧ u.trimmed.binarizeWith names = .ok n :=
  bind_eq_ok_iff.1 h

theorem Consistent.trimmed (hu : u.Consistent) : u.trimmed.Consistent :=
  hu.removeUnreachable.removeNonProductive.removeUnreachable

theorem EmptyOnlyAtStart.trimmed (hc : u.Consistent) (hu : u.EmptyOnlyAtStart) :
    u.trimmed.EmptyOnlyAtStart :=
  (hu.removeUnreachable hc).removeNonProductive.removeUnreachable
    hc.removeUnreachable.removeNonProductive

theorem expands_trimmed_iff (hc : u.Consistent) :
    u.trimmed.Expands [u.start] w ↔ u.Expands [u.start] w := by
  have h₁ := expands_removeUnreachable_iff (w := w) hc
  have h₂ := expands_removeNonProductive_iff (g := u.removeUnreachable) (u := [u.start]) (w := w)
  have h₃ := expands_removeUnreachable_iff (w := w) hc.removeUnreachable.removeNonProductive
  exact h₃.trans (h₂.trans h₁)

/-- The stages before the last one preserve the words of the start symbol. -/
theorem expands_start_trimmed_iff (hg : g.Consistent)
    (hu : g.eliminateEpsilon.eliminateUnits = .ok u) :
    u.trimmed.Expands [u.start] w ↔ g.Expands [g.start] w :=
  calc u.trimmed.Expands [u.start] w
    _ ↔ u.Expands [u.start] w := expands_trimmed_iff (hg.eliminateEpsilon.eliminateUnits hu)
    _ ↔ g.eliminateEpsilon.Expands [g.start] w :=
        emptyOnlyAtStart_eliminateEpsilon.expands_eliminateUnits_iff hu
    _ ↔ g.Expands [g.start] w := expands_start_eliminateEpsilon_iff

section Normalize

variable (hg : g.Consistent) (h : g.normalizeWith names = .ok n)
include hg h

theorem consistent_normalizeWith : n.Consistent := by
  obtain ⟨u, hu, hn⟩ := normalizeWith_eq_ok h
  exact (exists_binaryOf (hg.eliminateEpsilon.eliminateUnits hu).trimmed hn).1

theorem symbols_normalizeWith :
    n.symbols.Extends g.symbols ∧ n.isTerminal = g.isTerminal := by
  obtain ⟨u, hu, hn⟩ := normalizeWith_eq_ok h
  have hsymbols : u.symbols = g.eliminateEpsilon.symbols := symbols_eliminateUnits hu
  obtain ⟨hext, hterminal⟩ :=
    symbols_binarizeWith (hg.eliminateEpsilon.eliminateUnits hu).trimmed hn
  rw [show u.trimmed.symbols = g.symbols from hsymbols] at hext
  refine ⟨hext, hterminal.trans ?_⟩
  unfold isTerminal
  rw [show u.trimmed.symbols = g.symbols from hsymbols]

/-- The start symbol of a normal form derives what that of the grammar does. -/
theorem expands_normalizeWith_iff : n.Expands [n.start] w ↔ g.Expands [g.start] w := by
  obtain ⟨u, hu, hn⟩ := normalizeWith_eq_ok h
  have hcu := hg.eliminateEpsilon.eliminateUnits hu
  have heu := emptyOnlyAtStart_eliminateEpsilon.eliminateUnits hu
  obtain ⟨-, t, start, ps, v, -, hsep, hbin⟩ := exists_binaryOf hcu.trimmed hn
  calc n.Expands [n.start] w
    _ ↔ (ofProductions t start ps).Expands [start] w :=
        hbin.expands_start_iff (hsep.consistent hcu.trimmed)
    _ ↔ u.trimmed.Expands [u.start] w :=
        (EmptyOnlyAtStart.trimmed hcu heu).expands_separates_iff hcu.trimmed hsep
    _ ↔ g.Expands [g.start] w := expands_start_trimmed_iff hg hu

theorem isNormal_normalizeWith (hmem : rhs ∈ n.alternatives lhs) : n.isNormal lhs rhs := by
  obtain ⟨u, hu, hn⟩ := normalizeWith_eq_ok h
  have hcu := hg.eliminateEpsilon.eliminateUnits hu
  have heu := emptyOnlyAtStart_eliminateEpsilon.eliminateUnits hu
  have hunit : u.trimmed.UnitFree :=
    (unitFree_eliminateUnits hu).removeUnreachable.removeNonProductive.removeUnreachable
  obtain ⟨-, t, start, ps, v, -, hsep, hbin⟩ := exists_binaryOf hcu.trimmed hn
  refine hbin.isNormal (hsep.consistent hcu.trimmed) ?_ ?_ ?_ hmem
  · rw [occursOnRight_iff]
    rintro ⟨lhs, rhs, hrhs, hstart⟩
    exact hsep.start_not_mem hrhs hstart
  · intro lhs a ha
    rw [hsep.isTerminal_ofProductions]
    rcases hsep.of_mem ha with ⟨-, ha⟩ | ⟨-, ha, -⟩
    · exact hunit _ a ha
    · exact hunit _ a ha
  · intro lhs hnil
    rcases hsep.of_mem hnil with ⟨hlhs, -⟩ | ⟨-, hnil, hne⟩
    · exact hlhs
    · exact absurd rfl (hne ((EmptyOnlyAtStart.trimmed hcu heu).eq_start hnil))

end Normalize

end Chomsky.Grammar
