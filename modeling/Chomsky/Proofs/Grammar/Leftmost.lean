import Chomsky.Proofs.Grammar.Expansion

/-! # Leftmost derivations

The steps of a derivation of a word can be taken from left to right, and then they are as many as in
any other order (`leftmostIn_iff`).
-/

namespace Chomsky.Grammar

/-- A chain of so many steps, in any order. -/
inductive DerivesIn (g : Grammar) : Nat → Form → Form → Prop
  | refl (u : Form) : DerivesIn g 0 u u
  | head {n : Nat} {u v w : Form} : g.Yields u v → DerivesIn g n v w → DerivesIn g (n + 1) u w

/-- A form becomes a word by so many steps from left to right: a terminal in front stays, any other
symbol in front is replaced by an alternative. -/
inductive LeftmostIn (g : Grammar) : Nat → Form → Form → Prop
  | nil : LeftmostIn g 0 [] []
  | terminal {n : Nat} {a : SymbolId} {u w : Form} (ha : g.isTerminal a)
      (hu : LeftmostIn g n u w) : LeftmostIn g n (a :: u) (a :: w)
  | expand {n : Nat} {lhs : SymbolId} {rhs u w : Form} (hrhs : rhs ∈ g.alternatives lhs)
      (hu : LeftmostIn g n (rhs ++ u) w) : LeftmostIn g (n + 1) (lhs :: u) w

variable {g : Grammar} {n : Nat} {lhs : SymbolId} {rhs u v w x y : Form}

theorem DerivesIn.append_left (h : g.DerivesIn n u v) (x : Form) :
    g.DerivesIn n (x ++ u) (x ++ v) := by
  induction h with
  | refl u => exact .refl _
  | head hy _ ih => exact .head (hy.append_left x) ih

theorem LeftmostIn.forall_terminal (h : g.LeftmostIn n u w) : ∀ a ∈ w, g.isTerminal a := by
  induction h with
  | nil => exact nofun
  | terminal ha _ ih => exact List.forall_mem_cons.2 ⟨ha, ih⟩
  | expand _ _ ih => exact ih

theorem leftmostIn_zero_self (h : ∀ a ∈ w, g.isTerminal a) : g.LeftmostIn 0 w w := by
  induction w with
  | nil => exact .nil
  | cons a w ih =>
    obtain ⟨ha, h⟩ := List.forall_mem_cons.1 h
    exact .terminal ha (ih h)

/-- A step at any place may be taken when the steps from left to right arrive there. -/
theorem LeftmostIn.expand_at (hrhs : rhs ∈ g.alternatives lhs)
    (h : g.LeftmostIn n (x ++ rhs ++ y) w) : g.LeftmostIn (n + 1) (x ++ lhs :: y) w := by
  generalize hv : x ++ rhs ++ y = v at h
  induction h generalizing x with
  | nil =>
    obtain ⟨hxr, rfl⟩ := List.append_eq_nil_iff.1 hv
    obtain ⟨rfl, rfl⟩ := List.append_eq_nil_iff.1 hxr
    exact .expand hrhs .nil
  | @terminal n a u w ha hu ih =>
    cases x with
    | nil => exact .expand hrhs (hv ▸ .terminal ha hu)
    | cons b x =>
      obtain ⟨rfl, rfl⟩ := List.cons.inj hv
      exact .terminal ha (ih rfl)
  | @expand n lhs' rhs' u w hrhs' hu ih =>
    cases x with
    | nil => exact .expand hrhs (hv ▸ .expand hrhs' hu)
    | cons b x =>
      obtain ⟨rfl, rfl⟩ := List.cons.inj hv
      have hstep := ih (x := rhs' ++ x) (by simp only [List.append_eq, List.append_assoc])
      rw [List.append_assoc] at hstep
      exact .expand hrhs' hstep

theorem LeftmostIn.derivesIn (h : g.LeftmostIn n u w) : g.DerivesIn n u w := by
  induction h with
  | nil => exact .refl []
  | @terminal n a u w _ _ ih => exact ih.append_left [a]
  | @expand n lhs rhs u w hrhs _ ih => exact .head (.expand [] u (mem_rules.2 hrhs)) ih

theorem DerivesIn.leftmostIn (hw : ∀ a ∈ w, g.isTerminal a) (h : g.DerivesIn n u w) :
    g.LeftmostIn n u w := by
  induction h with
  | refl => exact leftmostIn_zero_self hw
  | head hy _ ih =>
    cases hy with
    | expand x y hrule => exact (ih hw).expand_at (mem_rules.1 hrule)

/-- Words are derived from left to right in as many steps as in any order. -/
theorem leftmostIn_iff :
    g.LeftmostIn n u w ↔ g.DerivesIn n u w ∧ ∀ a ∈ w, g.isTerminal a :=
  ⟨fun h => ⟨h.derivesIn, h.forall_terminal⟩, fun ⟨h, hw⟩ => h.leftmostIn hw⟩

end Chomsky.Grammar
