import Chomsky.Proofs.Grammar.Binary
import Chomsky.Proofs.Symbol.Fresh

/-! # Making a grammar binary does not fail

The names of new symbols are those asked for with a number or quotes after them. If these have no
blanks, there is always an unused one.
-/

namespace Chomsky

namespace Variables

variable {v : Variables} {stem : String} {a b : SymbolId} {rhs rest : Form}
  (hstem : ∀ c ∈ stem.toList, ¬Text.isBlank c)
include hstem

theorem exists_fresh : ∃ p, v.fresh stem = .ok p := by
  obtain ⟨⟨id, symbols⟩, h⟩ := SymbolTable.exists_freshNumbered hstem
  exact ⟨_, map_eq_ok_iff.2 ⟨_, h, rfl⟩⟩

theorem exists_forTerminal : ∃ p, v.forTerminal stem a = .ok p := by
  unfold forTerminal
  split
  · exact ⟨_, rfl⟩
  · exact exists_bind_eq_ok (exists_fresh hstem) fun _ => ⟨_, rfl⟩

theorem exists_forChain : ∃ p, v.forChain stem a b rest = .ok p := by
  induction rest generalizing v a b with
  | nil =>
    unfold forChain
    split
    · exact ⟨_, rfl⟩
    · exact exists_bind_eq_ok (exists_fresh hstem) fun _ => ⟨_, rfl⟩
  | cons c rest ih =>
    unfold forChain
    split
    · exact ⟨_, rfl⟩
    · exact exists_bind_eq_ok (exists_fresh hstem) fun _ => exists_bind_eq_ok ih fun _ => ⟨_, rfl⟩

theorem exists_liftAll : ∃ p, v.liftAll stem rhs = .ok p := by
  induction rhs generalizing v with
  | nil => exact ⟨_, rfl⟩
  | cons s rhs ih =>
    rw [liftAll_cons]
    refine exists_bind_eq_ok ?_ fun _ => exists_bind_eq_ok ih fun _ => ⟨_, rfl⟩
    split
    · exact exists_forTerminal hstem
    · exact ⟨_, rfl⟩

theorem exists_binarize : ∃ p, v.binarize stem rhs = .ok p := by
  unfold binarize
  split
  · exact ⟨_, rfl⟩
  · refine exists_bind_eq_ok (exists_liftAll hstem) fun lifted => ?_
    dsimp only
    split
    · exact exists_bind_eq_ok (exists_forChain hstem) fun _ => ⟨_, rfl⟩
    · exact ⟨_, rfl⟩

theorem exists_binarizeAll {alts : List Form} : ∃ p, v.binarizeAll stem alts = .ok p := by
  induction alts generalizing v with
  | nil => exact ⟨_, rfl⟩
  | cons rhs alts ih =>
    exact exists_bind_eq_ok (exists_binarize hstem) fun _ => exists_bind_eq_ok ih fun _ => ⟨_, rfl⟩

theorem exists_binarizeEntries {entries : List (SymbolId × List Form)} :
    ∃ p, v.binarizeEntries stem entries = .ok p := by
  induction entries generalizing v with
  | nil => exact ⟨_, rfl⟩
  | cons entry entries ih =>
    exact exists_bind_eq_ok (exists_binarizeAll hstem) fun _ =>
      exists_bind_eq_ok ih fun _ => ⟨_, rfl⟩

end Variables

namespace Grammar

variable {g : Grammar} {names : NormalFormNames}

theorem Consistent.exists_binarizeWith (hg : g.Consistent)
    (hstem : ∀ c ∈ names.stem.toList, ¬Text.isBlank c)
    (hsuffix : ∀ c ∈ names.startSuffix.toList, ¬Text.isBlank c) :
    ∃ b, g.binarizeWith names = .ok b := by
  refine exists_bind_eq_ok ?_ fun _ =>
    exists_bind_eq_ok (Variables.exists_binarizeEntries hstem) fun _ => ⟨_, rfl⟩
  unfold separateStart
  split
  · have hvalid := SymbolTable.validName_append (hg.validName_name hg.start_lt) hsuffix
    exact exists_bind_eq_ok (SymbolTable.exists_fresh hvalid) fun _ => ⟨_, rfl⟩
  · exact ⟨_, rfl⟩

end Grammar
end Chomsky
