import Chomsky.Proofs.StateSet.Bits
import Mathlib.Logic.Function.Basic

/-! # Histories of sets of states

Sets of states are made from each other by any number of operations. The finite sets that the same
operations make know nothing of lengths. Bits represent them after every operation
(`Operation.exists_make?`), so no length that any set was made with can ever be seen (`run_spec`).
-/

namespace Chomsky.StateBits

/-- A way to make a set. Sets that are there already are known by number. -/
inductive Operation where
  | withCapacity (capacity : Nat)
  | singleton (q : UInt32) (capacity : Nat)
  | ofList (states : List UInt32)
  | extend (r : Nat) (states : List UInt32)
  | insert (r : Nat) (q : UInt32)
  | union (r r' : Nat)
  | inter (r r' : Nat)
  | diff (r r' : Nat)

section

variable {B : Type} [BitField B]

def Operation.make? (sets : Nat → StateBits B) : Operation → Option (StateBits B)
  | withCapacity capacity => some (.withCapacity capacity)
  | singleton q capacity => singleton? q capacity
  | ofList states => ofList? states
  | extend r states => (sets r).extend? states
  | insert r q => ((sets r).insert? q).map Prod.snd
  | union r r' => some (sets r ∪ sets r')
  | inter r r' => some (sets r ∩ sets r')
  | diff r r' => some (sets r \ sets r')

def run (sets : Nat → StateBits B) (steps : List (Nat × Operation)) : Option (Nat → StateBits B) :=
  steps.foldlM (fun sets (r, o) => (o.make? sets).map (Function.update sets r)) sets

end

def Operation.result (sets : Nat → Finset UInt32) : Operation → Finset UInt32
  | withCapacity _ => ∅
  | singleton q _ => {q}
  | ofList states => states.toFinset
  | extend r states => sets r ∪ states.toFinset
  | insert r q => Insert.insert q (sets r)
  | union r r' => sets r ∪ sets r'
  | inter r r' => sets r ∩ sets r'
  | diff r r' => sets r \ sets r'

def results (sets : Nat → Finset UInt32) (steps : List (Nat × Operation)) : Nat → Finset UInt32 :=
  steps.foldl (fun sets (r, o) => Function.update sets r (o.result sets)) sets

variable {B : Type} [BitField B] {sets : Nat → StateBits B} {F : Nat → Finset UInt32}

theorem represents_update {s : StateBits B} {G : Finset UInt32}
    (h : ∀ r, (sets r).Represents (F r)) (hs : s.Represents G) (r r' : Nat) :
    (Function.update sets r s r').Represents (Function.update F r G r') := by
  by_cases hr : r' = r
  · subst hr
    rwa [Function.update_self, Function.update_self]
  · rw [Function.update_of_ne hr, Function.update_of_ne hr]
    exact h r'

variable [LawfulBitField B]

theorem Operation.exists_make? (h : ∀ r, (sets r).Represents (F r)) (o : Operation) :
    ∃ s, o.make? sets = some s ∧ s.Represents (o.result F) := by
  cases o with
  | withCapacity capacity => exact ⟨_, rfl, represents_withCapacity capacity⟩
  | singleton q capacity => exact exists_singleton? q capacity
  | ofList states => exact exists_ofList? states
  | extend r states => exact (h r).exists_extend? states
  | insert r q =>
    obtain ⟨s, hs, hrep⟩ := (h r).exists_insert? q
    exact ⟨s, by rw [make?, hs]; rfl, hrep⟩
  | union r r' => exact ⟨_, rfl, (h r).union (h r')⟩
  | inter r r' => exact ⟨_, rfl, (h r).inter (h r')⟩
  | diff r r' => exact ⟨_, rfl, (h r).diff (h r')⟩

theorem exists_run (h : ∀ r, (sets r).Represents (F r)) (steps : List (Nat × Operation)) :
    ∃ sets', run sets steps = some sets' ∧ ∀ r, (sets' r).Represents (results F steps r) := by
  induction steps generalizing sets F with
  | nil => exact ⟨sets, rfl, h⟩
  | cons step steps ih =>
    obtain ⟨r, o⟩ := step
    obtain ⟨s, hs, hrep⟩ := o.exists_make? h
    obtain ⟨sets', hrun, hsets'⟩ := ih (represents_update h hrep r)
    refine ⟨sets', ?_, hsets'⟩
    rw [run, List.foldlM_cons]
    dsimp only
    rw [hs]
    exact hrun

/-- Operations on bits never fail, and after any of them all that is read off the bits is true of
the finite sets that the same operations make. -/
theorem run_spec (B : Type) [BitField B] [LawfulBitField B] (steps : List (Nat × Operation)) :
    ∃ sets : Nat → StateBits B, run (fun _ => ∅) steps = some sets ∧
      let F := results (fun _ => ∅) steps
      (∀ r, (sets r).Shows (F r)) ∧
        ∀ r r', ((sets r).intersects (sets r') ↔ ∃ q, q ∈ F r ∧ q ∈ F r') ∧
          ((sets r == sets r') ↔ F r = F r') ∧
          ((sets r).toList = (sets r').toList ↔ F r = F r') := by
  obtain ⟨sets, hrun, hsets⟩ := exists_run (fun _ => represents_withCapacity (B := B) 0) steps
  refine ⟨sets, hrun, fun r => (hsets r).shows, fun r r' => ⟨?_, ?_, ?_⟩⟩
  · exact (hsets r).intersects_iff (hsets r')
  · exact (hsets r).beq_iff (hsets r')
  · exact (hsets r).toList_eq_iff (hsets r')

theorem run_spec_rooms : ∃ sets : Nat → StateBits SparseBits,
    run (fun _ => ∅) [(0, .singleton 2 0), (1, .singleton 2 100), (2, .ofList [70, 3, 2, 3]),
      (3, .union 0 2), (4, .diff 3 1), (5, .inter 2 3), (4, .insert 4 2)] = some sets ∧
    (sets 0 == sets 1) ∧ (sets 3 == sets 5) ∧ (sets 4 == sets 2) ∧ (sets 3).size = 3 ∧
      ¬(sets 3).contains 71 ∧ (sets 0).intersects (sets 4) ∧
      (∃ t, (sets 1).insert? 4294967295 = some (true, t)) ∧ (sets 6).isEmpty := by
  obtain ⟨sets, hrun, hshows, hpairs⟩ := run_spec SparseBits
    [(0, .singleton 2 0), (1, .singleton 2 100), (2, .ofList [70, 3, 2, 3]),
      (3, .union 0 2), (4, .diff 3 1), (5, .inter 2 3), (4, .insert 4 2)]
  refine ⟨sets, hrun, (hpairs 0 1).2.1.2 ?_, (hpairs 3 5).2.1.2 ?_, (hpairs 4 2).2.1.2 ?_,
    (hshows 3).size_eq.trans ?_, mt ((hshows 3).contains_iff 71).1 ?_, (hpairs 0 4).1.2 ⟨2, ?_⟩,
    (hshows 1).insert?_eq 4294967295, (hshows 6).isEmpty_iff.2 ?_⟩ <;> decide

end Chomsky.StateBits
