import Chomsky.Automaton.Basic
import Chomsky.Text.Blank

/-! # Runs

A word is accepted if a run over it leads from the start state to an accepting state. The
simulation tracks all active states at once; `accepts_iff` says that it decides this.
-/

namespace Chomsky.Automaton

/-- A run over a word, from one state to another. -/
inductive Run (a : Automaton) : StateId → List String → StateId → Prop
  | nil (q : StateId) : Run a q [] q
  | cons {p q r : StateId} {x : String} {i : SymbolIndex} {w : List String} :
      a.symbolIndex? x = some i → q ∈ a.targets p i → Run a q w r → Run a p (x :: w) r

variable (a : Automaton)

def acceptsFrom : StateSet → List String → Bool
  | active, [] => active.intersects a.accept
  | active, x :: w =>
    match a.symbolIndex? x with
    | none => false
    | some i => acceptsFrom (a.move active i) w

def accepts (w : List String) : Bool := a.acceptsFrom (.singleton a.start) w

def acceptsString (s : String) : Bool := a.accepts (Text.characters s)

variable {a}

theorem acceptsFrom_iff {active : StateSet} {w : List String} :
    a.acceptsFrom active w ↔ ∃ p ∈ active, ∃ q ∈ a.accept, a.Run p w q := by
  induction w generalizing active with
  | nil =>
    simp only [acceptsFrom, StateSet.intersects_iff]
    constructor
    · rintro ⟨q, hq, hacc⟩
      exact ⟨q, hq, q, hacc, .nil q⟩
    · rintro ⟨p, hp, q, hacc, hrun⟩
      cases hrun
      exact ⟨p, hp, hacc⟩
  | cons x w ih =>
    simp only [acceptsFrom]
    split
    · next hx =>
      refine ⟨nofun, ?_⟩
      rintro ⟨p, -, q, -, hrun⟩
      cases hrun with
      | cons hi _ _ => rw [hx] at hi; cases hi
    · next i hx =>
      rw [ih]
      constructor
      · rintro ⟨q, hq, r, hr, hrun⟩
        obtain ⟨p, hp, hpq⟩ := mem_move.1 hq
        exact ⟨p, hp, r, hr, .cons hx hpq hrun⟩
      · rintro ⟨p, hp, r, hr, hrun⟩
        cases hrun with
        | cons hi hpq hrun =>
          cases hx.symm.trans hi
          exact ⟨_, mem_move.2 ⟨p, hp, hpq⟩, r, hr, hrun⟩

/-- The simulation accepts the words that have an accepting run. -/
theorem accepts_iff {w : List String} :
    a.accepts w ↔ ∃ q ∈ a.accept, a.Run a.start w q := by
  rw [accepts, acceptsFrom_iff]
  constructor
  · rintro ⟨p, hp, h⟩
    exact StateSet.mem_singleton.1 hp ▸ h
  · exact fun h => ⟨a.start, StateSet.mem_singleton.2 rfl, h⟩

end Chomsky.Automaton
