import Chomsky.Automaton.Equivalence
import Chomsky.Proofs.Automaton.Walk
import Chomsky.Proofs.Data.Reachability
import Mathlib.Logic.Basic

/-! # Pairs of states

The reachable pairs of two deterministic automata are those to which words lead. The automata
accept the same words if no such pair disagrees (`agreesOnWords_iff`).
-/

namespace Chomsky.Automaton

variable {a b : Automaton} {x : String} {p : StatePair} {w : List String}

def jointAlphabet (a b : Automaton) : List String :=
  (OrderedSet.ofList (a.alphabet.toList ++ b.alphabet.toList)).toList

/-- The pair to which a word leads from the two start states. -/
def pairAfter (a b : Automaton) (w : List String) : StatePair :=
  (a.walk? (some a.start) w, b.walk? (some b.start) w)

def optionsBelow (n : Nat) : List (Option StateId) := none :: (List.range n).map some

theorem mem_optionsBelow {n : Nat} {o : Option StateId} :
    o ∈ optionsBelow n ↔ ∀ q, o = some q → q < n := by
  cases o with
  | none => simp [optionsBelow]
  | some q => simp [optionsBelow]

theorem length_optionsBelow (n : Nat) : (optionsBelow n).length = n + 1 := by
  simp [optionsBelow]

def allPairs (a b : Automaton) : List StatePair :=
  (optionsBelow a.states.size).flatMap fun o => (optionsBelow b.states.size).map fun o' => (o, o')

theorem mem_allPairs : p ∈ allPairs a b ↔
    (∀ q, p.1 = some q → q < a.states.size) ∧ ∀ q, p.2 = some q → q < b.states.size := by
  obtain ⟨o, o'⟩ := p
  rw [← mem_optionsBelow, ← mem_optionsBelow, allPairs]
  simp only [List.mem_flatMap, List.mem_map, Prod.mk.injEq]
  constructor
  · rintro ⟨o, ho, o', ho', rfl, rfl⟩
    exact ⟨ho, ho'⟩
  · rintro ⟨ho, ho'⟩
    exact ⟨o, ho, o', ho', rfl, rfl⟩

theorem length_allPairs :
    (allPairs a b).length = (a.states.size + 1) * (b.states.size + 1) := by
  simp [allPairs, List.length_flatMap, length_optionsBelow, List.map_const']

theorem mem_pairSuccessors {alphabet : List String} {p' : StatePair} :
    p' ∈ a.pairSuccessors b a.targets b.targets alphabet p ↔
      (∃ x ∈ alphabet, (a.step? a.targets p.1 x, b.step? b.targets p.2 x) = p') ∧
        p' ≠ (none, none) := by
  simp [pairSuccessors]

theorem symbolIndex?_eq_none (hx : x ∉ jointAlphabet a b) :
    a.symbolIndex? x = none ∧ b.symbolIndex? x = none := by
  rw [jointAlphabet, ← OrderedSet.mem_def, OrderedSet.mem_ofList, List.mem_append, not_or] at hx
  have hnone : ∀ {s : OrderedSet String}, x ∉ s.toList → s.idxOf? x = none := by
    intro s hs
    rw [← Option.not_isSome_iff_eq_none, OrderedSet.idxOf?_isSome_iff]
    exact hs
  exact ⟨hnone hx.1, hnone hx.2⟩

theorem pairAfter_append_singleton (w : List String) (x : String) :
    pairAfter a b (w ++ [x]) = (a.step? a.targets (pairAfter a b w).1 x,
      b.step? b.targets (pairAfter a b w).2 x) := by
  rw [pairAfter, walk?_append, walk?_append]
  rfl

theorem exists_pairAfter_of_mem_reachablePairs (hp : p ∈ a.reachablePairs b) :
    ∃ w, pairAfter a b w = p := by
  rw [reachablePairs_eq] at hp
  replace hp := reflTransGen_of_mem_explore hp
  induction hp with
  | refl => exact ⟨[], rfl⟩
  | tail _ hstep ih =>
    obtain ⟨w, rfl⟩ := ih
    obtain ⟨⟨x, -, rfl⟩, -⟩ := mem_pairSuccessors.1 hstep
    exact ⟨w ++ [x], pairAfter_append_singleton w x⟩

theorem start_mem_reachablePairs : (some a.start, some b.start) ∈ a.reachablePairs b := by
  rw [reachablePairs_eq]
  exact isPrefix_explore.subset List.mem_cons_self

section WellFormed

variable (ha : a.WellFormed) (hb : b.WellFormed)
include ha hb

theorem reachablePairs_closed (hp : p ∈ a.reachablePairs b) (x : String) :
    (a.step? a.targets p.1 x, b.step? b.targets p.2 x) = (none, none) ∨
      (a.step? a.targets p.1 x, b.step? b.targets p.2 x) ∈ a.reachablePairs b := by
  apply or_iff_not_imp_left.2
  intro hne
  have hx : x ∈ jointAlphabet a b := by
    refine Decidable.byContradiction fun hx => hne ?_
    have ⟨hxa, hxb⟩ := symbolIndex?_eq_none hx
    rw [step?_eq_none hxa, step?_eq_none hxb]
  rw [reachablePairs_eq] at hp ⊢
  have hnext := mem_pairSuccessors.2 ⟨⟨x, hx, rfl⟩, hne⟩
  refine explore_start_closed (allPairs a b) ?_ ?_ ?_ p hp _ hnext
  · intro p _ p' hp'
    obtain ⟨⟨x, -, rfl⟩, -⟩ := mem_pairSuccessors.1 hp'
    exact mem_allPairs.2 ⟨fun q hq => ha.lt_of_step? hq, fun q hq => hb.lt_of_step? hq⟩
  · refine mem_allPairs.2 ⟨fun q hq => ?_, fun q hq => ?_⟩
    · exact Option.some.inj hq ▸ ha.start_lt
    · exact Option.some.inj hq ▸ hb.start_lt
  · rw [length_allPairs]
    exact Nat.lt_succ_self _

theorem pairAfter_mem_reachablePairs (w : List String) :
    pairAfter a b w = (none, none) ∨ pairAfter a b w ∈ a.reachablePairs b := by
  have hwalk : ∀ p, p ∈ a.reachablePairs b →
      (a.walk? p.1 w, b.walk? p.2 w) = (none, none) ∨
        (a.walk? p.1 w, b.walk? p.2 w) ∈ a.reachablePairs b := by
    induction w with
    | nil => exact fun p hp => Or.inr hp
    | cons x w ih =>
      intro p hp
      rcases reachablePairs_closed ha hb hp x with hnone | hmem
      · obtain ⟨h₁, h₂⟩ := Prod.mk.inj hnone
        rw [walk?, walk?, List.foldl_cons, List.foldl_cons, h₁, h₂, ← walk?, ← walk?, walk?_none,
          walk?_none]
        exact Or.inl rfl
      · exact ih _ hmem
  exact hwalk _ start_mem_reachablePairs

/-- Deterministic automata accept the same words if no reachable pair disagrees. -/
theorem agreesOnWords_iff (hda : a.isDeterministic) (hdb : b.isDeterministic) :
    a.agreesOnWords b ↔ ∀ w, a.accepts w = b.accepts w := by
  simp only [agreesOnWords, List.all_eq_true, beq_iff_eq, accepts_eq_acceptsAt hda,
    accepts_eq_acceptsAt hdb]
  constructor
  · intro h w
    rcases pairAfter_mem_reachablePairs ha hb w with hnone | hmem
    · obtain ⟨h₁, h₂⟩ := Prod.mk.inj hnone
      rw [h₁, h₂]
      rfl
    · exact h _ hmem
  · intro h p hp
    obtain ⟨w, rfl⟩ := exists_pairAfter_of_mem_reachablePairs hp
    exact h w

end WellFormed

end Chomsky.Automaton
