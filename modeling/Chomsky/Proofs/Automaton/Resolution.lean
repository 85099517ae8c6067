import Chomsky.Proofs.Automaton.Definition
import Mathlib.Tactic.Common

/-! # Definitions and their automata

A definition can be built if it has a start state and uses declared names only, as far as names are
declared (`exists_build_eq_ok_iff`). The automaton then has the start state, the accepting states
and the transitions of the definition, whatever the numbers that names have got
(`realizes_of_build`).
-/

namespace Chomsky

namespace AutomatonDefinition

variable {closed : Bool} {names names' : OrderedSet String} {name x : String} {i : Nat}

/-- A name may be used with a set if it is a member or the set is not closed. -/
def Usable (closed : Bool) (names : OrderedSet String) (name : String) : Prop :=
  closed = true → name ∈ names

def usedStates (d : AutomatonDefinition) : List String :=
  d.start.toList ++ d.accept ++ d.transitions.flatMap fun (source, _, target) => [source, target]

def usedSymbols (d : AutomatonDefinition) : List String :=
  d.transitions.map fun (_, symbol, _) => symbol

section Success

theorem exists_resolve_eq_ok_iff :
    (∃ result, resolve closed names name = .ok result) ↔ Usable closed names name := by
  unfold resolve
  split
  · next i hi =>
    exact iff_of_true ⟨_, rfl⟩ fun _ => OrderedSet.idxOf?_isSome_iff.1 (hi ▸ rfl)
  · next hnone =>
    have hnot := OrderedSet.not_mem_of_idxOf?_eq_none hnone
    cases closed <;> simp [Usable, hnot]

theorem usable_of_resolve (h : resolve closed names name = .ok (i, names')) :
    Usable closed names' x ↔ Usable closed names x := by
  cases closed with
  | false => exact iff_of_true nofun nofun
  | true =>
    unfold resolve at h
    split at h
    · cases h
      rfl
    · cases h

theorem usable_of_resolveAll {rest : List String} {is : List Nat}
    (h : resolveAll closed names rest = .ok (is, names')) :
    Usable closed names' x ↔ Usable closed names x := by
  induction rest generalizing names is with
  | nil => cases h; rfl
  | cons name rest ih =>
    obtain ⟨⟨i, names₁⟩, hname, h⟩ := bind_eq_ok_iff.1 h
    obtain ⟨⟨is, names₂⟩, hrest, h⟩ := bind_eq_ok_iff.1 h
    cases h
    exact (ih hrest).trans (usable_of_resolve hname)

theorem exists_resolveAll_eq_ok_iff {rest : List String} :
    (∃ result, resolveAll closed names rest = .ok result) ↔
      ∀ name ∈ rest, Usable closed names name := by
  induction rest generalizing names with
  | nil => exact iff_of_true ⟨_, rfl⟩ nofun
  | cons name rest ih =>
    rw [List.forall_mem_cons]
    refine exists_bind_eq_ok_iff exists_resolve_eq_ok_iff ?_
    rintro ⟨i, names₁⟩ hname
    simp only [← usable_of_resolve hname]
    exact exists_bind_pure_eq_ok_iff.trans ih

theorem exists_resolveEnds_eq_ok_iff {rest : List (String × String × String)} :
    (∃ result, resolveEnds closed names rest = .ok result) ↔
      ∀ edge ∈ rest, Usable closed names edge.1 ∧ Usable closed names edge.2.2 := by
  induction rest generalizing names with
  | nil => exact iff_of_true ⟨_, rfl⟩ nofun
  | cons edge rest ih =>
    rw [List.forall_mem_cons, and_assoc]
    refine exists_bind_eq_ok_iff exists_resolve_eq_ok_iff ?_
    rintro ⟨q, names₁⟩ hsource
    simp only [← usable_of_resolve hsource]
    refine exists_bind_eq_ok_iff exists_resolve_eq_ok_iff ?_
    rintro ⟨r, names₂⟩ htarget
    simp only [← usable_of_resolve htarget]
    exact exists_bind_pure_eq_ok_iff.trans ih

theorem exists_resolveSymbols_eq_ok_iff {ts : Transitions}
    {edges : List (StateId × String × StateId)} :
    (∃ result, resolveSymbols closed names ts edges = .ok result) ↔
      ∀ edge ∈ edges, Usable closed names edge.2.1 := by
  induction edges generalizing names ts with
  | nil => exact iff_of_true ⟨_, rfl⟩ nofun
  | cons edge edges ih =>
    rw [List.forall_mem_cons]
    refine exists_bind_eq_ok_iff exists_resolve_eq_ok_iff ?_
    rintro ⟨i, names₁⟩ hsymbol
    simp only [← usable_of_resolve hsymbol]
    exact ih

theorem map_symbol_of_resolveEnds {rest : List (String × String × String)}
    {edges : List (StateId × String × StateId)}
    (h : resolveEnds closed names rest = .ok (edges, names')) :
    (edges.map fun (_, symbol, _) => symbol) = rest.map fun (_, symbol, _) => symbol := by
  have hedges := congrArg (List.map fun (_, symbol, _) => symbol) (resolveEnds_eq_ok h).2
  simpa [Function.comp_def] using hedges

theorem usable_declared_iff {declared : Option (List String)} :
    Usable declared.isSome (.ofList (declared.getD [])) x ↔
      ∀ names, declared = some names → x ∈ names := by
  cases declared <;> simp [Usable]

/-- Building succeeds if there is a start state and no name is used without being declared. -/
theorem exists_build_eq_ok_iff {d : AutomatonDefinition} :
    (∃ a, d.build = .ok a) ↔ d.start.isSome ∧
      (∀ names, d.states = some names → ∀ x ∈ d.usedStates, x ∈ names) ∧
        ∀ names, d.alphabet = some names → ∀ x ∈ d.usedSymbols, x ∈ names := by
  have hswap : ∀ {declared : Option (List String)} {used : List String},
      (∀ names, declared = some names → ∀ x ∈ used, x ∈ names) ↔
        ∀ x ∈ used, Usable declared.isSome (.ofList (declared.getD [])) x := by
    simp only [usable_declared_iff]
    intro declared used
    exact ⟨fun h x hx names hn => h names hn x hx, fun h names hn x hx => h x hx names hn⟩
  rw [hswap, hswap]
  unfold build usedStates
  cases d.start with
  | none => simp
  | some startName =>
    simp only [Option.isSome_some, Option.toList_some, true_and, List.forall_mem_append,
      List.forall_mem_singleton, List.forall_mem_flatMap, List.forall_mem_cons, and_assoc]
    refine exists_bind_eq_ok_iff exists_resolve_eq_ok_iff ?_
    rintro ⟨start, states₁⟩ hstart
    -- what is left to number is asked of the set that the last stage has left behind
    simp only [← usable_of_resolve hstart]
    refine exists_bind_eq_ok_iff exists_resolveAll_eq_ok_iff ?_
    rintro ⟨accept, states₂⟩ haccept
    simp only [← usable_of_resolveAll haccept]
    refine exists_bind_eq_ok_iff exists_resolveEnds_eq_ok_iff ?_
    rintro ⟨edges, states₃⟩ hedges
    rw [usedSymbols, ← map_symbol_of_resolveEnds hedges, List.forall_mem_map]
    exact exists_bind_pure_eq_ok_iff.trans exists_resolveSymbols_eq_ok_iff

end Success

section Names

theorem mem_accept_of_resolveAll {rest : List String} {is : List Nat} {states : OrderedSet String}
    (h : resolveAll closed names rest = .ok (is, names')) (hpre : names'.toList <+: states.toList) :
    x ∈ rest ↔ ∃ q ∈ is, states.get? q = some x := by
  have hmap : is.map states.get? = rest.map some := by
    rw [← (resolveAll_eq_ok h).2]
    refine List.map_congr_left fun i hi => ?_
    have hi := List.mem_map_of_mem (f := names'.get?) hi
    rw [(resolveAll_eq_ok h).2] at hi
    obtain ⟨y, -, hy⟩ := List.mem_map.1 hi
    rw [← hy, OrderedSet.get?_of_isPrefix hpre hy.symm]
  rw [← List.mem_map, hmap]
  simp

theorem mem_transitions_of_resolveEnds {rest : List (String × String × String)}
    {edges : List (StateId × String × StateId)} {s t : String}
    (h : resolveEnds closed names rest = .ok (edges, names')) : (s, x, t) ∈ rest ↔
      ∃ q r, (q, x, r) ∈ edges ∧ names'.get? q = some s ∧ names'.get? r = some t := by
  have hmem : (s, x, t) ∈ rest ↔ (some s, x, some t) ∈ rest.map fun (s, x, t) =>
      (some s, x, some t) := by
    simp
  rw [hmem, ← (resolveEnds_eq_ok h).2]
  simp only [List.mem_map, Prod.mk.injEq, Prod.exists]
  constructor
  · rintro ⟨q, y, r, hedge, hq, hy, hr⟩
    exact ⟨q, r, hy ▸ hedge, hq, hr⟩
  · rintro ⟨q, r, hedge, hq, hr⟩
    exact ⟨q, x, r, hedge, hq, rfl, hr⟩

end Names

end AutomatonDefinition

namespace Transitions

variable {ts ts' : Transitions} {p q r t : StateId} {i j : SymbolIndex}

def HasTarget (ts : Transitions) (q : StateId) (i : SymbolIndex) (r : StateId) : Prop :=
  ∃ s, ts.get? (q, i) = some s ∧ r ∈ s

theorem not_hasTarget_empty : ¬HasTarget ∅ q i r := nofun

theorem hasTarget_add : (ts.add q i r).HasTarget p j t ↔
    p = q ∧ j = i ∧ t = r ∨ ts.HasTarget p j t := by
  unfold HasTarget
  rw [get?_add]
  by_cases hkey : (p, j) = (q, i)
  · obtain ⟨rfl, rfl⟩ := Prod.mk.inj hkey
    rw [if_pos rfl]
    cases ts.get? (p, j) <;> simp
  · rw [if_neg hkey]
    refine (or_iff_right fun h => hkey ?_).symm
    rw [h.1, h.2.1]

end Transitions

namespace AutomatonDefinition

/-- What is added are the transitions by the numbers of their symbols, all of which have one. -/
theorem hasTarget_of_resolveSymbols {closed : Bool} {alphabet alphabet' : OrderedSet String}
    {ts ts' : Transitions} {edges : List (StateId × String × StateId)}
    (h : resolveSymbols closed alphabet ts edges = .ok (ts', alphabet')) :
    alphabet.toList <+: alphabet'.toList ∧
      (∀ edge ∈ edges, ∃ i, alphabet'.get? i = some edge.2.1) ∧
        ∀ q i r, ts'.HasTarget q i r ↔
          ts.HasTarget q i r ∨ ∃ x, (q, x, r) ∈ edges ∧ alphabet'.get? i = some x := by
  induction edges generalizing alphabet ts with
  | nil => cases h; simp [List.prefix_rfl]
  | cons edge edges ih =>
    obtain ⟨q, x, r⟩ := edge
    obtain ⟨⟨i, alphabet₁⟩, hx, h⟩ := bind_eq_ok_iff.1 h
    obtain ⟨hpre₁, hi⟩ := resolve_eq_ok hx
    obtain ⟨hpre₂, hsymbols, htargets⟩ := ih h
    have hi := OrderedSet.get?_of_isPrefix hpre₂ hi
    refine ⟨hpre₁.trans hpre₂, List.forall_mem_cons.2 ⟨⟨i, hi⟩, hsymbols⟩, fun p j t => ?_⟩
    rw [htargets, Transitions.hasTarget_add]
    simp only [List.mem_cons, Prod.mk.injEq, or_and_right, exists_or]
    have hhead : (∃ y, (p = q ∧ y = x ∧ t = r) ∧ alphabet'.get? j = some y) ↔
        p = q ∧ j = i ∧ t = r := by
      constructor
      · rintro ⟨_, ⟨rfl, rfl, rfl⟩, hj⟩
        exact ⟨rfl, (OrderedSet.get?_eq_iff hi).1 hj, rfl⟩
      · rintro ⟨rfl, rfl, rfl⟩
        exact ⟨x, ⟨rfl, rfl, rfl⟩, hi⟩
    rw [hhead]
    tauto

end AutomatonDefinition

namespace Automaton

open AutomatonDefinition

/-- The automaton has the start state, the accepting states and the transitions that a definition
gives by name. -/
structure Realizes (a : Automaton) (d : AutomatonDefinition) : Prop where
  start : d.start = a.stateName? a.start
  accept : ∀ x, x ∈ d.accept ↔ ∃ q ∈ a.accept, a.stateName? q = some x
  transitions : ∀ s x t, (s, x, t) ∈ d.transitions ↔ ∃ q i r,
    a.stateName? q = some s ∧ a.symbolName? i = some x ∧ a.stateName? r = some t ∧ r ∈ a.targets q i

theorem realizes_of_build {d : AutomatonDefinition} {a : Automaton} (h : d.build = .ok a) :
    a.Realizes d := by
  obtain ⟨startName, states₁, accept, states₂, edges, hstart, h₁, h₂, h₃, h₄, haccept⟩ :=
    build_eq_ok h
  obtain ⟨-, hs⟩ := resolve_eq_ok h₁
  obtain ⟨hpre₂, -⟩ := resolveAll_eq_ok h₂
  obtain ⟨hpre₃, -⟩ := resolveEnds_eq_ok h₃
  obtain ⟨-, hsymbols, htargets⟩ := hasTarget_of_resolveSymbols h₄
  refine ⟨?_, fun x => ?_, fun s x t => ?_⟩
  · exact hstart.trans (OrderedSet.get?_of_isPrefix (hpre₂.trans hpre₃) hs).symm
  · simp only [haccept, StateSet.mem_ofList]
    exact mem_accept_of_resolveAll h₂ hpre₃
  · rw [mem_transitions_of_resolveEnds h₃]
    constructor
    · rintro ⟨q, r, hedge, hq, hr⟩
      obtain ⟨i, hi⟩ := hsymbols _ hedge
      exact ⟨q, i, r, hq, hi, hr,
        mem_targets_iff.2 ((htargets q i r).2 (Or.inr ⟨x, hedge, hi⟩))⟩
    · rintro ⟨q, i, r, hq, hi, hr, hmem⟩
      rcases (htargets q i r).1 (mem_targets_iff.1 hmem) with hold | ⟨y, hedge, hy⟩
      · exact absurd hold Transitions.not_hasTarget_empty
      · obtain rfl := Option.some.inj (hy.symm.trans hi)
        exact ⟨q, r, hedge, hq, hr⟩

end Automaton
end Chomsky
