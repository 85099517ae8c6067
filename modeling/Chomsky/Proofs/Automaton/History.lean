import Chomsky.Proofs.Automaton.Resolution
import Chomsky.Proofs.Automaton.Walk
import Mathlib

/-! # Automata from calls

Among the calls that put a definition together, the last one counts that sets the start state or
declares a set, and all of those that add accepting states or transitions (`ofCalls_eq`). The
automaton accepts the words over which a path of added transitions leads from the start state to an
accepting one (`Realizes.accepts_iff`).
-/

namespace Chomsky

namespace AutomatonDefinition

namespace Call

def start? : Call → Option String
  | .start name => some name
  | _ => none

def states? : Call → Option (List String)
  | .states names => some names
  | _ => none

def alphabet? : Call → Option (List String)
  | .alphabet symbols => some symbols
  | _ => none

def accepted : Call → List String
  | .accept names => names
  | _ => []

def added : Call → List (String × String × String)
  | .transition source symbol target => [(source, symbol, target)]
  | .transitions source symbol targets => targets.map fun target => (source, symbol, target)
  | _ => []

end Call

variable {calls : List Call} {edges : List (String × String × String)} {p : Nat → String}
  {s t x : String} {w : List String}

def last? {α : Type} (sets : Call → Option α) (calls : List Call) : Option α :=
  (calls.filterMap sets).getLast?

/-- A path of names leads over a word through some transitions. -/
def Follows (edges : List (String × String × String)) (p : Nat → String) (w : List String) : Prop :=
  ∀ i (hi : i < w.length), (p i, w[i], p (i + 1)) ∈ edges

/-- A path of added transitions leads over a word from the start state to an accepting state. -/
def Recognizes (calls : List Call) (w : List String) : Prop :=
  ∃ p : Nat → String, last? Call.start? calls = some (p 0) ∧
    p w.length ∈ calls.flatMap Call.accepted ∧ Follows (calls.flatMap Call.added) p w

theorem ofCalls_eq (calls : List Call) : ofCalls calls =
    { states := last? Call.states? calls, alphabet := last? Call.alphabet? calls,
      transitions := calls.flatMap Call.added, start := last? Call.start? calls,
      accept := calls.flatMap Call.accepted } := by
  induction calls using List.reverseRecOn with
  | nil => rfl
  | append_singleton calls c ih =>
    rw [ofCalls, List.foldl_append, List.foldl_cons, List.foldl_nil, ← ofCalls, ih]
    cases c <;>
      simp [call, addTransitions, last?, Call.start?, Call.states?, Call.alphabet?, Call.accepted,
        Call.added]

theorem follows_cons_iff :
    Follows edges p (x :: w) ↔ (p 0, x, p 1) ∈ edges ∧ Follows edges (fun i => p (i + 1)) w := by
  constructor
  · exact fun h => ⟨h 0 (Nat.succ_pos _), fun i hi => h (i + 1) (Nat.succ_lt_succ hi)⟩
  · rintro ⟨hhead, htail⟩ i hi
    cases i with
    | zero => exact hhead
    | succ i => exact htail i (Nat.lt_of_succ_lt_succ hi)

theorem mem_usedStates_iff {d : AutomatonDefinition} : x ∈ d.usedStates ↔
    d.start = some x ∨ x ∈ d.accept ∨ ∃ s y t, (s, y, t) ∈ d.transitions ∧ (x = s ∨ x = t) := by
  simp [usedStates]

theorem mem_usedSymbols_iff {d : AutomatonDefinition} :
    x ∈ d.usedSymbols ↔ ∃ s t, (s, x, t) ∈ d.transitions := by
  simp [usedSymbols]

/-- Building fails without a start state, and for a name that is not declared although names are. -/
theorem exists_build_eq_error_iff {d : AutomatonDefinition} :
    (∃ cause, d.build = .error cause) ↔ d.start = none ∨
      (∃ names, d.states = some names ∧ ∃ x ∈ d.usedStates, x ∉ names) ∨
        ∃ symbols, d.alphabet = some symbols ∧ ∃ x ∈ d.usedSymbols, x ∉ symbols := by
  rw [exists_eq_error_iff, exists_build_eq_ok_iff, not_and_or, not_and_or,
    Option.not_isSome_iff_eq_none]
  simp only [not_forall, exists_prop]

end AutomatonDefinition

namespace Automaton.Realizes

open AutomatonDefinition

variable {a : Automaton} {d : AutomatonDefinition} (h : a.Realizes d) (hwf : a.WellFormed)
  {q : StateId} {s t : String} {w : List String}
include h hwf

theorem exists_run_iff (hq : a.stateName? q = some s) :
    (∃ r, a.Run q w r ∧ a.stateName? r = some t) ↔
      ∃ p : Nat → String, p 0 = s ∧ p w.length = t ∧ Follows d.transitions p w := by
  induction w generalizing q s with
  | nil =>
    constructor
    · rintro ⟨r, hrun, hr⟩
      cases hrun
      exact ⟨fun _ => s, rfl, Option.some.inj (hq.symm.trans hr), nofun⟩
    · rintro ⟨p, rfl, rfl, -⟩
      exact ⟨q, .nil q, hq⟩
  | cons x w ih =>
    constructor
    · rintro ⟨r, hrun, hr⟩
      cases hrun with
      | cons hx hmem hrun =>
        have hname := stateName?_eq (hwf.lt_of_mem_targets hmem)
        obtain ⟨p, hp, hend, hpath⟩ := (ih hname).1 ⟨r, hrun, hr⟩
        have hhead : (s, x, p 0) ∈ d.transitions :=
          (h.transitions s x (p 0)).2
            ⟨_, _, _, hq, OrderedSet.get?_idxOf?_iff.1 hx, hp ▸ hname, hmem⟩
        exact ⟨fun | 0 => s | i + 1 => p i, rfl, hend, follows_cons_iff.2 ⟨hhead, hpath⟩⟩
    · rintro ⟨p, rfl, rfl, hpath⟩
      obtain ⟨hhead, htail⟩ := follows_cons_iff.1 hpath
      obtain ⟨q', i, r, hq', hi, hr, hmem⟩ := (h.transitions _ _ _).1 hhead
      obtain rfl := (OrderedSet.get?_eq_iff hq).1 hq'
      obtain ⟨t, hrun, ht⟩ := (ih hr).2 ⟨_, rfl, rfl, htail⟩
      exact ⟨t, .cons (OrderedSet.get?_idxOf?_iff.2 hi) hmem hrun, ht⟩

theorem accepts_iff : a.accepts w ↔ ∃ p : Nat → String,
    d.start = some (p 0) ∧ p w.length ∈ d.accept ∧ Follows d.transitions p w := by
  rw [Automaton.accepts_iff]
  constructor
  · rintro ⟨q, hq, hrun⟩
    have hstart := stateName?_eq hwf.start_lt
    have hname := stateName?_eq (hwf.accept_lt q hq)
    obtain ⟨p, hp, hend, hpath⟩ := (h.exists_run_iff hwf hstart).1 ⟨q, hrun, hname⟩
    exact ⟨p, by rw [h.start, hstart, hp], (h.accept _).2 ⟨q, hq, hend ▸ hname⟩, hpath⟩
  · rintro ⟨p, hp, hend, hpath⟩
    obtain ⟨q, hq, hname⟩ := (h.accept _).1 hend
    obtain ⟨r, hrun, hr⟩ :=
      (h.exists_run_iff hwf (h.start.symm.trans hp)).2 ⟨p, rfl, rfl, hpath⟩
    obtain rfl := (OrderedSet.get?_eq_iff hname).1 hr
    exact ⟨r, hq, hrun⟩

end Automaton.Realizes

namespace AutomatonDefinition

/-- Building fails for lack of a start state or of a declaration, and an automaton that is built
accepts the words over which there is a path of added transitions from the start state to an
accepting one. -/
theorem build_ofCalls (calls : List Call) :
    ((∃ cause, (ofCalls calls).build = .error cause) ↔
      last? Call.start? calls = none ∨
      (∃ names, last? Call.states? calls = some names ∧ ∃ x, x ∉ names ∧
        (last? Call.start? calls = some x ∨ x ∈ calls.flatMap Call.accepted ∨
          ∃ s y t, (s, y, t) ∈ calls.flatMap Call.added ∧ (x = s ∨ x = t))) ∨
      ∃ symbols, last? Call.alphabet? calls = some symbols ∧ ∃ x, x ∉ symbols ∧
        ∃ s t, (s, x, t) ∈ calls.flatMap Call.added) ∧
    ∀ a, (ofCalls calls).build = .ok a →
      (∀ w, a.accepts w ↔ Recognizes calls w) ∧
        ∀ s : String, a.acceptsString s ↔ Recognizes calls (s.toList.map String.singleton) := by
  constructor
  · rw [exists_build_eq_error_iff]
    simp only [mem_usedStates_iff, mem_usedSymbols_iff, ofCalls_eq, and_comm (b := _ ∉ _)]
  · intro a ha
    have hiff : ∀ w, a.accepts w ↔ Recognizes calls w := fun w => by
      rw [(Automaton.realizes_of_build ha).accepts_iff (wellFormed_of_build ha), ofCalls_eq]
      rfl
    exact ⟨hiff, fun s => hiff _⟩

/-- The words that end in `b`. The first start state and the first declaration do not count. -/
def endsInB : List Call :=
  [.start "r", .states ["q"], .transition "p" "a" "p", .states ["p", "q"],
    .transitions "p" "b" ["p", "q"], .start "p", .accept ["q"]]

theorem states_endsInB :
    (ofCalls endsInB).build.map (fun a => a.states.toList) = .ok ["p", "q"] := by
  decide +kernel

theorem build_ofCalls_endsInB :
    (∃ a, (ofCalls endsInB).build = .ok a ∧ a.accepts ["a", "b"] ∧ a.acceptsString "ab") ∧
      ∃ cause, (ofCalls (endsInB ++ [.accept ["r"]])).build = .error cause := by
  constructor
  · obtain ⟨a, ha, -⟩ := map_eq_ok_iff.1 states_endsInB
    obtain ⟨haccepts, hstring⟩ := (build_ofCalls endsInB).2 a ha
    have hpath : Recognizes endsInB ["a", "b"] :=
      ⟨fun i => if i < 2 then "p" else "q", rfl, by decide, by unfold Follows; decide⟩
    exact ⟨a, ha, (haccepts _).2 hpath, (hstring "ab").2 hpath⟩
  · refine (build_ofCalls _).1.2 (Or.inr (Or.inl ⟨["p", "q"], rfl, "r", by decide, ?_⟩))
    exact Or.inr (Or.inl (by decide))

end AutomatonDefinition
end Chomsky
