import Chomsky.Proofs.Symbol.Table
import Mathlib.Logic.Function.Basic
import Mathlib.Order.Bounds.Defs

/-! # Histories of symbol tables

Every call enters one name: the given one, or the first of a sequence that is unused
(`call_eq`). So a table only grows, the numbers in use are those that calls have returned, and they
keep their names and kinds through any further calls (`calls_spec`).
-/

namespace Chomsky

theorem le_searchUnused {used : String → Bool} {name : Nat → String} (fuel n : Nat) :
    n ≤ searchUnused used name fuel n := by
  induction fuel generalizing n with
  | zero => exact Nat.le_refl n
  | succ fuel ih =>
    unfold searchUnused
    split
    · exact Nat.le_of_succ_le (ih (n + 1))
    · exact Nat.le_refl n

namespace SymbolTable

/-- A call that enters a name of a kind. Counters are known by number, and calls may share them. -/
inductive Call where
  | intern (name : String) (kind : SymbolKind)
  | fresh (base : String) (kind : SymbolKind)
  | freshNumbered (stem : String) (counter : Nat) (kind : SymbolKind)

structure Store where
  table : SymbolTable
  counters : Nat → Nat

namespace Store

variable (s : Store)

/-- An answer, and the store with the table that comes with it, if one does. -/
def settle : Except LanguageError (SymbolId × SymbolTable) → Except LanguageError SymbolId × Store
  | .ok (id, t) => (.ok id, { s with table := t })
  | .error cause => (.error cause, s)

def call : Call → Except LanguageError SymbolId × Store
  | .intern name kind => s.settle (s.table.intern name kind)
  | .fresh base kind => s.settle (s.table.fresh base kind)
  | .freshNumbered stem k kind =>
    let (answer, next) := s.table.freshNumbered stem (s.counters k) kind
    settle { s with counters := Function.update s.counters k next } answer

def calls (cs : List Call) : Store := cs.foldl (fun s c => (s.call c).2) s

def answers (s : Store) : List Call → List (Except LanguageError SymbolId)
  | [] => []
  | c :: cs => (s.call c).1 :: (s.call c).2.answers cs

end Store

namespace Call

def kind : Call → SymbolKind
  | .intern _ kind | .fresh _ kind | .freshNumbered _ _ kind => kind

def name (s : Store) : Call → String
  | .intern name _ => name
  | .fresh base _ => quoted base (leastUnused s.table.contains s.table.size (quoted base) 0)
  | .freshNumbered stem k _ =>
    numbered stem (leastUnused s.table.contains s.table.size (numbered stem) (s.counters k))

def counters (s : Store) : Call → Nat → Nat
  | .intern _ _ | .fresh _ _ => s.counters
  | .freshNumbered stem k _ => Function.update s.counters k
    (leastUnused s.table.contains s.table.size (numbered stem) (s.counters k) + 1)

end Call

variable {s : Store} {t : SymbolTable} {c : Call} {cs : List Call} {id : SymbolId} {name : String}
  {kind : SymbolKind} {cause : LanguageError}

theorem isLeast_leastUnused {name : Nat → String} (hname : ∀ {i j}, name i = name j → i = j)
    (m : Nat) :
    IsLeast {n | m ≤ n ∧ name n ∉ t.names} (leastUnused t.contains t.size name m) := by
  refine ⟨⟨le_searchUnused _ _, fun h => ?_⟩, fun n ⟨hm, hn⟩ => Nat.le_of_not_lt fun hlt => ?_⟩
  · exact not_contains_leastUnused hname m (contains_iff.2 h)
  · exact hn (contains_iff.1 (used_of_lt_searchUnused hm hlt))

theorem name?_eq_none_iff : t.name? id = none ↔ t.size ≤ id := by
  rw [← getElem?_names, List.getElem?_eq_none_iff, length_names]

theorem exists_name?_iff : (∃ name, t.name? id = some name) ↔ id < t.size := by
  rw [← Option.isSome_iff_exists, Option.isSome_iff_ne_none, ne_eq, name?_eq_none_iff, Nat.not_le]

theorem existsUnique_kind (h : name ∈ t.names) :
    ∃! kind, ∃ id, t.lookup? name = some id ∧ t.kind? id = some kind := by
  obtain ⟨id, hid⟩ := List.mem_iff_getElem?.1 h
  rw [getElem?_names] at hid
  obtain ⟨kind, hkind⟩ := exists_kind? (lt_size_of_name? hid)
  refine ⟨kind, ⟨id, lookup?_eq_some_iff.2 hid, hkind⟩, ?_⟩
  rintro kind' ⟨id', hid', hkind'⟩
  obtain rfl := Option.some.inj ((lookup?_eq_some_iff.2 hid).symm.trans hid')
  exact Option.some.inj (hkind'.symm.trans hkind)

namespace Store

theorem call_eq (s : Store) (c : Call) :
    s.call c = settle ⟨s.table, c.counters s⟩ (s.table.intern (c.name s) c.kind) := by
  cases c with
  | intern name kind => rfl
  | fresh base kind =>
    rw [call, fresh, withQuotes_eq]
    rfl
  | freshNumbered stem k kind => rfl

/-- The outcomes of a call: its name is entered, or the table stays as it is. -/
theorem call_cases (s : Store) (c : Call) :
    (∃ id t, s.table.intern (c.name s) c.kind = .ok (id, t) ∧
      s.call c = (.ok id, ⟨t, c.counters s⟩)) ∨
    ∃ cause, s.table.intern (c.name s) c.kind = .error cause ∧
      s.call c = (.error cause, ⟨s.table, c.counters s⟩) := by
  rw [call_eq]
  cases s.table.intern (c.name s) c.kind with
  | ok p => exact Or.inl ⟨p.1, p.2, rfl, rfl⟩
  | error cause => exact Or.inr ⟨cause, rfl, rfl⟩

theorem counters_call (s : Store) (c : Call) : (s.call c).2.counters = c.counters s := by
  rcases s.call_cases c with ⟨id, t, -, h⟩ | ⟨cause, -, h⟩ <;> rw [h]

theorem intern_of_call (h : (s.call c).1 = .ok id) :
    s.table.intern (c.name s) c.kind = .ok (id, (s.call c).2.table) := by
  rcases s.call_cases c with ⟨id', t, hintern, hcall⟩ | ⟨cause, -, hcall⟩
  · rw [hcall] at h ⊢
    cases h
    exact hintern
  · rw [hcall] at h
    cases h

theorem refuses_of_call (h : (s.call c).1 = .error cause) :
    s.table.Refuses (c.name s) c.kind cause ∧ (s.call c).2.table = s.table := by
  rcases s.call_cases c with ⟨id, t, -, hcall⟩ | ⟨cause', hintern, hcall⟩
  · rw [hcall] at h
    cases h
  · rw [hcall] at h ⊢
    cases h
    exact ⟨intern_eq_error hintern, rfl⟩

theorem exists_call_iff : (∃ id, (s.call c).1 = .ok id) ↔ s.table.Admits (c.name s) c.kind := by
  constructor
  · rintro ⟨id, h⟩
    exact (exists_intern_iff.1 ⟨id, intern_of_call h⟩).1
  · intro h
    rcases s.call_cases c with ⟨id, t, -, hcall⟩ | ⟨cause, hintern, -⟩
    · exact ⟨id, congrArg Prod.fst hcall⟩
    · rcases intern_eq_error hintern with ⟨hinvalid, -⟩ | ⟨⟨k, hk, hne⟩, -⟩
      · exact absurd h.1 hinvalid
      · exact absurd (h.2 k hk) hne

theorem extends_call (s : Store) (c : Call) : (s.call c).2.table.Extends s.table := by
  cases h : (s.call c).1 with
  | ok id => exact extends_of_intern (intern_of_call h)
  | error cause => exact (refuses_of_call h).2 ▸ .refl _

theorem extends_calls (s : Store) (cs : List Call) : (s.calls cs).table.Extends s.table := by
  induction cs generalizing s with
  | nil => exact .refl _
  | cons c cs ih => exact (ih (s.call c).2).trans (s.extends_call c)

theorem lt_size_call_iff :
    id < (s.call c).2.table.size ↔ id < s.table.size ∨ (s.call c).1 = .ok id := by
  constructor
  · intro hlt
    cases h : (s.call c).1 with
    | ok id' =>
      obtain ⟨-, -, -, heq | ⟨hnot, -, -⟩⟩ := intern_eq_ok (intern_of_call h)
      · exact Or.inl (heq ▸ hlt)
      · obtain ⟨rfl, hsize⟩ := size_of_intern_unused (intern_of_call h) hnot
        rw [hsize] at hlt
        exact (Nat.lt_succ_iff_lt_or_eq.1 hlt).imp_right fun heq => congrArg _ heq.symm
    | error cause => exact Or.inl ((refuses_of_call h).2 ▸ hlt)
  · rintro (hlt | h)
    · exact Nat.lt_of_lt_of_le hlt (s.extends_call c).size_le
    · exact lt_size_of_kind? (kind?_of_intern (intern_of_call h))

/-- The numbers in use are those that were in use before, and those that calls have returned. -/
theorem lt_size_calls_iff :
    id < (s.calls cs).table.size ↔ id < s.table.size ∨ .ok id ∈ s.answers cs := by
  induction cs generalizing s with
  | nil => simp [calls, answers]
  | cons c cs ih =>
    have hcalls : s.calls (c :: cs) = (s.call c).2.calls cs := rfl
    rw [hcalls, ih, lt_size_call_iff, answers, List.mem_cons, or_assoc, eq_comm (b := (s.call c).1)]

/-- What a call does that enters a name with a kind: it succeeds if the table admits this, and the
number that it returns stands for the name and the kind after any further calls. -/
structure Enters (s : Store) (c : Call) (name : String) (kind : SymbolKind) : Prop where
  succeeds_iff : (∃ id, (s.call c).1 = .ok id) ↔ s.table.Admits name kind
  keeps : ∀ id, (s.call c).1 = .ok id → ∀ cs,
    ((s.call c).2.calls cs).table.name? id = some name ∧
      ((s.call c).2.calls cs).table.kind? id = some kind
  fails : ∀ cause, (s.call c).1 = .error cause →
    s.table.Refuses name kind cause ∧ (s.call c).2.table = s.table

theorem enters_call (s : Store) (c : Call) : s.Enters c (c.name s) c.kind where
  succeeds_iff := exists_call_iff
  keeps id h cs := by
    obtain ⟨hkind, hname, -⟩ := intern_eq_ok (intern_of_call h)
    have hext := (s.call c).2.extends_calls cs
    rw [hext.name?_eq (lt_size_of_name? hname), hext.kind?_eq (lt_size_of_kind? hkind)]
    exact ⟨hname, hkind⟩
  fails cause h := refuses_of_call h

theorem name?_eq_none_of_call (h : (s.call c).1 = .ok id) (hunused : c.name s ∉ s.table.names) :
    s.table.name? id = none := by
  obtain ⟨rfl, -⟩ := size_of_intern_unused (intern_of_call h) (mt contains_iff.1 hunused)
  exact name?_eq_none_iff.2 (Nat.le_refl _)

/-- After any calls on an empty table, names and the numbers that calls have returned determine each
other, and each name has one kind. What another call enters stays for ever: a given name, one with
the fewest quotes that make it unused, or one with the least number from a counter on that makes it
unused. -/
theorem calls_spec (counters : Nat → Nat) (cs : List Call) :
    let s := calls ⟨∅, counters⟩ cs
    (∀ name id, s.table.lookup? name = some id ↔ s.table.name? id = some name) ∧
    (∀ id, (∃ name, s.table.name? id = some name) ↔ .ok id ∈ answers ⟨∅, counters⟩ cs) ∧
    (∀ name ∈ s.table.names, ∃! kind, ∃ id, s.table.lookup? name = some id ∧
      s.table.kind? id = some kind) ∧
    (∀ name kind, s.Enters (.intern name kind) name kind ∧
      (s.call (.intern name kind)).2.counters = s.counters) ∧
    (∀ base kind, ∃ n, IsLeast {n | quoted base n ∉ s.table.names} n ∧
      s.Enters (.fresh base kind) (quoted base n) kind ∧
      (∀ id, (s.call (.fresh base kind)).1 = .ok id → s.table.name? id = none) ∧
      (s.call (.fresh base kind)).2.counters = s.counters) ∧
    ∀ stem k kind, ∃ n, IsLeast {n | s.counters k ≤ n ∧ numbered stem n ∉ s.table.names} n ∧
      s.Enters (.freshNumbered stem k kind) (numbered stem n) kind ∧
      (∀ id, (s.call (.freshNumbered stem k kind)).1 = .ok id → s.table.name? id = none) ∧
      (s.call (.freshNumbered stem k kind)).2.counters =
        Function.update s.counters k (n + 1) := by
  intro s
  refine ⟨fun _ _ => lookup?_eq_some_iff, fun id => ?_, fun name => existsUnique_kind,
    fun name kind => ?_, fun base kind => ?_, fun stem k kind => ?_⟩
  · rw [exists_name?_iff, lt_size_calls_iff]
    exact or_iff_right (Nat.not_lt_zero id)
  · exact ⟨s.enters_call _, s.counters_call _⟩
  · have hleast := isLeast_leastUnused (t := s.table) (quoted_injective base) 0
    simp only [Nat.zero_le, true_and] at hleast
    exact ⟨_, hleast, s.enters_call (.fresh base kind),
      fun id h => name?_eq_none_of_call h hleast.1, s.counters_call _⟩
  · have hleast := isLeast_leastUnused (t := s.table) (numbered_injective stem) (s.counters k)
    exact ⟨_, hleast, s.enters_call (.freshNumbered stem k kind),
      fun id h => name?_eq_none_of_call h hleast.1.2, s.counters_call _⟩

/-- Stems that end in digits run into names of other stems. -/
example : (calls ⟨∅, fun _ => 1⟩ [.intern "X12" .nonterminal, .freshNumbered "X1" 0 .nonterminal,
    .freshNumbered "X1" 0 .nonterminal, .freshNumbered "X" 0 .nonterminal,
    .freshNumbered "X" 1 .nonterminal, .intern "X1" .terminal, .fresh "X1" .terminal]).table.names =
      ["X12", "X11", "X13", "X4", "X1", "X1'"] := by
  decide +kernel

end Store
end SymbolTable
end Chomsky
