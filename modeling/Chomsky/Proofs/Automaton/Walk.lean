import Chomsky.Automaton.Equivalence
import Chomsky.Automaton.Run
import Chomsky.Proofs.Automaton.WellFormed

/-! # Active states

A word leads to a set of active states, those of the runs over it. In a deterministic automaton
this is one state or none, and acceptance is read off it.
-/

namespace Chomsky.Automaton

variable (a : Automaton)

def moveNamed (s : StateSet) (x : String) : StateSet :=
  match a.symbolIndex? x with
  | none => ∅
  | some i => a.move s i

/-- The states to which runs over a word lead. -/
def activeAfter (w : List String) : StateSet := w.foldl a.moveNamed (.singleton a.start)

def walk? (q : Option StateId) (w : List String) : Option StateId :=
  w.foldl (a.step? a.targets) q

variable {a} {q r : StateId} {s : StateSet} {o : Option StateId} {x : String} {i : SymbolIndex}
  {u v w : List String}

theorem symbolIndex?_lt (hx : a.symbolIndex? x = some i) : i < a.alphabet.size := by
  have hx := OrderedSet.get?_idxOf?_iff.1 hx
  rw [← OrderedSet.getElem?_toList] at hx
  simpa using (List.getElem?_eq_some_iff.1 hx).1

theorem exists_symbolIndex? (hi : i < a.alphabet.size) : ∃ x, a.symbolIndex? x = some i := by
  rw [← OrderedSet.length_toList] at hi
  refine ⟨a.alphabet.toList[i], OrderedSet.get?_idxOf?_iff.2 ?_⟩
  rw [← OrderedSet.getElem?_toList, List.getElem?_eq_getElem hi]

theorem moveNamed_eq_move (hx : a.symbolIndex? x = some i) : a.moveNamed s x = a.move s i := by
  rw [moveNamed, hx]

theorem moveNamed_eq_empty (hx : a.symbolIndex? x = none) : a.moveNamed s x = ∅ := by
  rw [moveNamed, hx]

theorem move_empty : a.move ∅ i = ∅ := rfl

theorem moveNamed_empty : a.moveNamed ∅ x = ∅ := by
  cases hx : a.symbolIndex? x with
  | none => exact moveNamed_eq_empty hx
  | some i => rw [moveNamed_eq_move hx, move_empty]

theorem foldl_moveNamed_empty (w : List String) : w.foldl a.moveNamed ∅ = ∅ := by
  induction w with
  | nil => rfl
  | cons x w ih => rw [List.foldl_cons, moveNamed_empty, ih]

theorem acceptsFrom_eq : a.acceptsFrom s w = (w.foldl a.moveNamed s).intersects a.accept := by
  induction w generalizing s with
  | nil => rfl
  | cons x w ih =>
    rw [acceptsFrom, List.foldl_cons]
    split
    · next hx =>
      rw [moveNamed_eq_empty hx, foldl_moveNamed_empty]
      rfl
    · next i hx => rw [ih, moveNamed_eq_move hx]

theorem accepts_eq : a.accepts w = (a.activeAfter w).intersects a.accept := acceptsFrom_eq

theorem mem_foldl_moveNamed_iff :
    r ∈ w.foldl a.moveNamed s ↔ ∃ q ∈ s, a.Run q w r := by
  induction w generalizing s with
  | nil =>
    constructor
    · exact fun h => ⟨r, h, .nil r⟩
    · rintro ⟨q, hq, hrun⟩
      cases hrun
      exact hq
  | cons x w ih =>
    rw [List.foldl_cons, ih]
    constructor
    · rintro ⟨p, hp, hrun⟩
      cases hx : a.symbolIndex? x with
      | none =>
        rw [moveNamed_eq_empty hx] at hp
        exact absurd hp StateSet.not_mem_empty
      | some i =>
        rw [moveNamed_eq_move hx] at hp
        obtain ⟨q, hq, hqp⟩ := mem_move.1 hp
        exact ⟨q, hq, .cons hx hqp hrun⟩
    · rintro ⟨q, hq, hrun⟩
      cases hrun with
      | cons hx hqp hrun =>
        refine ⟨_, ?_, hrun⟩
        rw [moveNamed_eq_move hx]
        exact mem_move.2 ⟨q, hq, hqp⟩

/-- The active states are the ends of runs. -/
theorem mem_activeAfter_iff : q ∈ a.activeAfter w ↔ a.Run a.start w q := by
  rw [activeAfter, mem_foldl_moveNamed_iff]
  constructor
  · rintro ⟨p, hp, hrun⟩
    exact StateSet.mem_singleton.1 hp ▸ hrun
  · exact fun h => ⟨a.start, StateSet.mem_singleton.2 rfl, h⟩

theorem activeAfter_append_singleton (w : List String) (x : String) :
    a.activeAfter (w ++ [x]) = a.moveNamed (a.activeAfter w) x := by
  rw [activeAfter, List.foldl_append]
  rfl

theorem step?_eq (o : Option StateId) (x : String) :
    a.step? a.targets o x =
      (a.symbolIndex? x).bind fun i => o.bind fun q => (a.targets q i).least? :=
  rfl

theorem step?_eq_none (hx : a.symbolIndex? x = none) : a.step? a.targets o x = none := by
  rw [step?_eq, hx]
  rfl

theorem step?_none (x : String) : a.step? a.targets none x = none := by
  rw [step?_eq]
  cases a.symbolIndex? x <;> rfl

theorem walk?_nil : a.walk? o [] = o := rfl

theorem walk?_append : a.walk? o (u ++ v) = a.walk? (a.walk? o u) v := List.foldl_append

theorem walk?_none (w : List String) : a.walk? none w = none := by
  induction w with
  | nil => rfl
  | cons x w ih => rw [walk?, List.foldl_cons, step?_none, ← walk?, ih]

theorem ofOption_intersects : (StateSet.ofOption o).intersects a.accept = a.acceptsAt o := by
  rw [Bool.eq_iff_iff, StateSet.intersects_iff]
  cases o with
  | none => simp [acceptsAt]
  | some q => simp [acceptsAt]

namespace WellFormed

variable (h : a.WellFormed)
include h

theorem lt_of_step? (ho : a.step? a.targets o x = some r) : r < a.states.size := by
  rw [step?_eq] at ho
  obtain ⟨i, -, ho⟩ := Option.bind_eq_some_iff.1 ho
  obtain ⟨q, -, ho⟩ := Option.bind_eq_some_iff.1 ho
  exact h.lt_of_mem_targets (StateSet.mem_of_least? ho)

theorem lt_of_walk? (ho : ∀ q, o = some q → q < a.states.size) (hw : a.walk? o w = some r) :
    r < a.states.size := by
  induction w generalizing o with
  | nil => exact ho r hw
  | cons x w ih => exact ih (fun q hq => h.lt_of_step? hq) hw

theorem lt_of_walk?_start (hw : a.walk? (some a.start) w = some r) : r < a.states.size := by
  refine h.lt_of_walk? (fun q hq => ?_) hw
  exact Option.some.inj hq ▸ h.start_lt

end WellFormed

section Deterministic

variable (hdet : a.isDeterministic)
include hdet

theorem targets_eq_ofOption (q : StateId) (i : SymbolIndex) :
    a.targets q i = .ofOption (a.targets q i).least? :=
  StateSet.eq_ofOption_least? (isDeterministic_iff.1 hdet q i)

theorem moveNamed_ofOption (o : Option StateId) (x : String) :
    a.moveNamed (.ofOption o) x = .ofOption (a.step? a.targets o x) := by
  rw [step?_eq]
  cases hx : a.symbolIndex? x with
  | none => exact moveNamed_eq_empty hx
  | some i =>
    rw [moveNamed_eq_move hx]
    cases o with
    | none => exact move_empty
    | some q =>
      refine StateSet.ext fun r => mem_move.trans ?_
      rw [Option.bind_some, Option.bind_some, ← targets_eq_ofOption hdet]
      simp

theorem foldl_moveNamed_ofOption (o : Option StateId) (w : List String) :
    w.foldl a.moveNamed (.ofOption o) = .ofOption (a.walk? o w) := by
  induction w generalizing o with
  | nil => rfl
  | cons x w ih => rw [List.foldl_cons, moveNamed_ofOption hdet, ih, walk?, walk?, List.foldl_cons]

theorem activeAfter_eq_ofOption (w : List String) :
    a.activeAfter w = .ofOption (a.walk? (some a.start) w) :=
  foldl_moveNamed_ofOption hdet (some a.start) w

/-- A deterministic automaton accepts the words that lead to an accepting state. -/
theorem accepts_eq_acceptsAt (w : List String) :
    a.accepts w = a.acceptsAt (a.walk? (some a.start) w) := by
  rw [accepts_eq, activeAfter_eq_ofOption hdet, ofOption_intersects]

theorem run_start_iff : a.Run a.start w q ↔ a.walk? (some a.start) w = some q := by
  rw [← mem_activeAfter_iff, activeAfter_eq_ofOption hdet, StateSet.mem_ofOption]

end Deterministic

end Chomsky.Automaton
