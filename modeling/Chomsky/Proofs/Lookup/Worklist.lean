import Chomsky.Proofs.Automaton.Quotient
import Chomsky.Proofs.Lookup.Refinement
import Chomsky.Proofs.Obtainable

/-! # The queue of the refinement

Only the smaller part of a divided block is put in the queue, and pairs that wait may be of blocks
that have been divided since. What has to wait still does: where two states of a block step into
different ones, one of these is in the queue with the symbol (`BlockQueue.Invariant`). So when the
queue is empty, states share a block if and only if they accept the same words (`reaches_spec`).
-/

namespace Chomsky.Automaton

variable {a : Automaton} {p q : StateId} {w : List String}

/-- The same words lead from both states to acceptance; none does from the sink. -/
def SameWords (a : Automaton) (p q : StateId) : Prop :=
  ∀ w, a.acceptsFrom (.singleton p) w = a.acceptsFrom (.singleton q) w

theorem WellFormed.acceptsFrom_sink (h : a.WellFormed) (w : List String) :
    a.acceptsFrom (.singleton a.sink) w = false := by
  rw [← Bool.not_eq_true, acceptsFrom_iff]
  rintro ⟨p, hp, q, hq, hrun⟩
  obtain rfl := StateSet.mem_singleton.1 hp
  cases hrun with
  | nil => exact Nat.lt_irrefl _ (h.accept_lt _ hq)
  | cons _ htarget _ => exact Nat.lt_irrefl _ (h.source_lt_of_mem_targets htarget)

theorem WellFormed.acceptsFrom_eq_acceptsLater (h : a.WellFormed) (hdet : a.isDeterministic)
    (q : StateId) (w : List String) : a.acceptsFrom (.singleton q) w = a.acceptsLater q w := by
  by_cases hq : q = a.sink
  · rw [hq, h.acceptsFrom_sink, acceptsLater_sink]
  · rw [acceptsFrom_singleton hdet, acceptsAfter_eq_acceptsLater hq]

theorem WellFormed.sameWords_iff (h : a.WellFormed) (hdet : a.isDeterministic) :
    a.SameWords p q ↔ a.SameFuture p q := by
  simp only [SameWords, h.acceptsFrom_eq_acceptsLater hdet, SameFuture]

theorem mem_drop_turns {n done blocks k i : Nat} (hk : k < blocks) (hi : i < n)
    (hdone : done ≤ k * n + i) : (k, i) ∈ (turns blocks n).drop done := by
  have hlt : k * n + i < blocks * n := by
    have hle := Nat.mul_le_mul_right n (Nat.succ_le_of_lt hk)
    rw [Nat.succ_mul] at hle
    omega
  refine List.drop_subset_drop_left (turns blocks n) hdone ?_
  rw [drop_turns hlt hi]
  exact List.mem_cons_self

theorem size_le_size_splitBlocks (cls : StateSet) (blocks : Array StateSet) :
    blocks.size ≤ (splitBlocks cls blocks).size := by
  rw [← Array.length_toList, ← Array.length_toList, toList_splitBlocks, List.length_append,
    List.length_map]
  exact Nat.le_add_right _ _

namespace BlockQueue

variable {n : Nat} {t u : BlockQueue} {r : Refinement}

/-- The first pair leaves the queue and has its turn. -/
def Iterates (a : Automaton) (t u : BlockQueue) : Prop :=
  ∃ pair waiting, t.waiting = pair :: waiting ∧
    turn a.sources a.symbols ⟨t.blocks, waiting⟩ pair = .ok u

/-- The queue after a number of turns. -/
inductive Reaches (a : Automaton) : Nat → BlockQueue → Prop
  | initial : Reaches a 0 (initial a)
  | turn {n : Nat} {t u : BlockQueue} (ht : Reaches a n t) (hu : Iterates a t u) :
      Reaches a (n + 1) u

/-- What holds whenever a pair may have its turn. -/
structure Invariant (a : Automaton) (t : BlockQueue) : Prop where
  nonempty : ∀ b ∈ t.blocks, ∃ q, q ∈ b
  disjoint : DisjointBlocks t.blocks
  covers : ∀ q, (∃ b ∈ t.blocks, q ∈ b) ↔ q = a.sink ∨ q ∈ a.reachableStates
  together : ∀ p ∈ a.completedStates, ∀ q ∈ a.completedStates, a.SameWords p q →
    ∃ b ∈ t.blocks, p ∈ b ∧ q ∈ b
  pending : ∀ b ∈ t.blocks, ∀ p ∈ b, ∀ q ∈ b, ∀ i < a.alphabet.size, ∀ k l c d,
    t.blocks[k]? = some c → t.blocks[l]? = some d → a.target p i ∈ c → a.target q i ∈ d → k ≠ l →
    (k, i) ∈ t.waiting ∨ (l, i) ∈ t.waiting

theorem invariant_after (h : a.WellFormed) (hdet : a.isDeterministic) (hr : r.Invariant a) :
    (after a.alphabet.size r.done r.blocks.toList).Invariant a where
  nonempty b hb := hr.nonempty b ⟨hb⟩
  disjoint := hr.disjoint
  covers q := by
    rw [← mem_completedStates_iff, hr.covers]
    simp only [after, Array.mem_toList_iff]
  together p hp q hq hpq := by
    obtain ⟨b, hb, hpb⟩ := (hr.covers p).1 hp
    exact ⟨b, hb.val, hpb, hr.together b hb p hpb q hq ((h.sameWords_iff hdet).1 hpq)⟩
  pending b hb p hp q hq i hi k l c d hc hd hpc hqd hkl := by
    simp only [after, Array.getElem?_toList] at hc hd
    have hwaits : ∀ {m : Nat} {e : StateSet}, r.blocks[m]? = some e →
        r.done ≤ m * a.alphabet.size + i →
          (m, i) ∈ (after a.alphabet.size r.done r.blocks.toList).waiting := by
      intro m e he hdone
      have hm := (Array.getElem?_eq_some_iff.1 he).1
      exact mem_drop_turns (by rwa [Array.length_toList]) hi hdone
    exact (hr.pending b ⟨hb⟩ p hp q hq i hi k l c d hc hd hpc hqd hkl).imp (hwaits hc) (hwaits hd)

theorem iterates_after_iff (hlt : r.done < r.blocks.size * a.alphabet.size) :
    Iterates a (after a.alphabet.size r.done r.blocks.toList) u ↔
      u = after a.alphabet.size (r.step a.sources a.alphabet.size).done
        (r.step a.sources a.alphabet.size).blocks.toList := by
  obtain ⟨pair, hafter, hturn⟩ := exists_turn_after hlt
  rw [hafter, Iterates]
  constructor
  · rintro ⟨_, _, hwaiting, hu⟩
    obtain ⟨rfl, rfl⟩ := List.cons.inj hwaiting
    exact (Except.ok.inj (hturn.symm.trans hu)).symm
  · rintro rfl
    exact ⟨pair, _, rfl, hturn⟩

theorem waiting_after_ne_nil_iff : (after a.alphabet.size r.done r.blocks.toList).waiting ≠ [] ↔
    r.done < r.blocks.size * a.alphabet.size := by
  rw [after, ne_eq, List.drop_eq_nil_iff, length_turns, Array.length_toList, Nat.not_le]

theorem Reaches.exists_refinement (h : a.WellFormed) (ht : Reaches a n t) :
    ∃ r : Refinement, r.Invariant a ∧ r.done = n ∧ r.done ≤ r.blocks.size * a.alphabet.size ∧
      t = after a.alphabet.size r.done r.blocks.toList := by
  induction ht with
  | initial =>
    exact ⟨.initial a, Refinement.invariant_initial h, rfl, Nat.zero_le _, initial_eq_after a⟩
  | turn _ hu ih =>
    obtain ⟨r, hr, rfl, -, rfl⟩ := ih
    have hne : (after a.alphabet.size r.done r.blocks.toList).waiting ≠ [] := by
      obtain ⟨pair, waiting, hwaiting, -⟩ := hu
      rw [hwaiting]
      exact List.cons_ne_nil _ _
    have hlt := waiting_after_ne_nil_iff.1 hne
    have hsize : r.blocks.size ≤ (r.step a.sources a.alphabet.size).blocks.size :=
      size_le_size_splitBlocks _ _
    refine ⟨r.step a.sources a.alphabet.size, hr.step h hlt, rfl, ?_, (iterates_after_iff hlt).1 hu⟩
    exact Nat.le_trans (Nat.succ_le_of_lt hlt) (Nat.mul_le_mul_right _ hsize)

theorem Reaches.drain_eq (ht : Reaches a n t) (fuel : Nat) :
    drain a.sources a.symbols (n + fuel) (BlockQueue.initial a) =
      drain a.sources a.symbols fuel t := by
  induction ht generalizing fuel with
  | initial => rw [Nat.zero_add]
  | @turn n t u _ hu ih =>
    obtain ⟨pair, waiting, hwaiting, hturn⟩ := hu
    obtain ⟨blocks, _⟩ := t
    subst hwaiting
    rw [Nat.succ_add_eq_add_succ, ih, drain_cons, hturn, ok_bind]

section Turns

variable (h : a.WellFormed) (ht : Reaches a n t)
include h ht

theorem Reaches.le : n ≤ a.completedStates.size * a.alphabet.size := by
  obtain ⟨r, hr, rfl, hle, -⟩ := ht.exists_refinement h
  exact Nat.le_trans hle (Nat.mul_le_mul_right _ hr.size_le)

theorem Reaches.exists_iterates (hne : t.waiting ≠ []) : ∃! u, Iterates a t u := by
  obtain ⟨r, hr, rfl, -, rfl⟩ := ht.exists_refinement h
  have hlt := waiting_after_ne_nil_iff.1 hne
  exact ⟨_, (iterates_after_iff hlt).2 rfl, fun u hu => (iterates_after_iff hlt).1 hu⟩

theorem Reaches.blocks_eq (hnil : t.waiting = []) : t.blocks = a.refinedBlocks := by
  obtain ⟨fuel, hfuel⟩ := Nat.exists_eq_add_of_le (ht.le h)
  have hdrain : a.checkedRefinedBlocks = .ok t.blocks := by
    rw [checkedRefinedBlocks, hfuel, ht.drain_eq, drain, hnil]
  exact Except.ok.inj (hdrain.symm.trans h.checkedRefinedBlocks_eq)

theorem Reaches.exists_nil (fuel : Nat)
    (hfuel : a.completedStates.size * a.alphabet.size ≤ n + fuel) :
    ∃ m u, Reaches a m u ∧ u.waiting = [] := by
  induction fuel generalizing n t with
  | zero =>
    refine ⟨n, t, ht, Decidable.not_not.1 fun hne => ?_⟩
    obtain ⟨u, hu, -⟩ := ht.exists_iterates h hne
    have hle := (ht.turn hu).le h
    omega
  | succ fuel ih =>
    by_cases hnil : t.waiting = []
    · exact ⟨n, t, ht, hnil⟩
    · obtain ⟨u, hu, -⟩ := ht.exists_iterates h hnil
      exact ih (ht.turn hu) (by omega)

end Turns

/-- At every turn the invariant holds. There is a next turn unless the queue is empty, as it is in
the end, and then states share a block if and only if they accept the same words. -/
theorem reaches_spec (ha : a.Obtainable) (hdet : a.isDeterministic) :
    (∀ w, a.acceptsFrom (.singleton a.sink) w = false) ∧
      (∀ n t, Reaches a n t → t.Invariant a ∧ n ≤ a.completedStates.size * a.alphabet.size ∧
        (t.waiting ≠ [] → ∃! u, Iterates a t u) ∧
          (t.waiting = [] → t.blocks = a.refinedBlocks ∧
            ∀ p ∈ a.completedStates, ∀ q ∈ a.completedStates,
              (∃ b ∈ t.blocks, p ∈ b ∧ q ∈ b) ↔ a.SameWords p q)) ∧
        ∃ n t, Reaches a n t ∧ t.waiting = [] := by
  have h := ha.wellFormed
  have hinvariant : ∀ {n t}, Reaches a n t → t.Invariant a := fun ht => by
    obtain ⟨r, hr, rfl, -, rfl⟩ := ht.exists_refinement h
    exact invariant_after h hdet hr
  refine ⟨h.acceptsFrom_sink, fun n t ht =>
    ⟨hinvariant ht, ht.le h, ht.exists_iterates h, fun hnil => ?_⟩, ?_⟩
  · have hblocks := ht.blocks_eq h hnil
    refine ⟨hblocks, fun p hp q hq => ⟨?_, (hinvariant ht).together p hp q hq⟩⟩
    rintro ⟨b, hb, hpb, hqb⟩
    rw [hblocks] at hb
    exact (h.sameWords_iff hdet).2 ((mem_refinedBlock_iff h hb hpb).1 hqb).2
  · exact Reaches.initial.exists_nil h _ (Nat.le_add_left _ 0)

theorem map_refinedBlocks_forked : forked.build.map (fun a =>
    (a.isDeterministic, a.completedStates.toList, a.alphabet.size,
      a.refinedBlocks.map StateSet.toList)) =
        .ok (true, [0, 1, 2, 3, 4, 5, 7], 2, [[1, 2], [5, 7], [3, 4], [0]]) := by
  decide +kernel

theorem reaches_spec_forked : ∃ a, forked.build = .ok a ∧
    (∀ n t, Reaches a n t → t.Invariant a ∧ n ≤ 14) ∧
      ∃ n t, Reaches a n t ∧ t.waiting = [] ∧
        t.blocks.map StateSet.toList = [[1, 2], [5, 7], [3, 4], [0]] ∧ a.SameWords 3 4 := by
  obtain ⟨a, ha, hvalues⟩ := map_eq_ok_iff.1 map_refinedBlocks_forked
  obtain ⟨hdet, hstates, hsymbols, hblocks⟩ := by simpa only [Prod.mk.injEq] using hvalues
  obtain ⟨-, hreached, n, t, ht, hnil⟩ := reaches_spec (.build ha) hdet
  obtain ⟨heq, hiff⟩ := (hreached n t ht).2.2.2 hnil
  have hmem : ∀ {q}, q ∈ a.completedStates ↔ q ∈ [0, 1, 2, 3, 4, 5, 7] := fun {q} => by
    rw [StateSet.mem_def, hstates]
  refine ⟨a, ha, fun n t ht => ⟨(hreached n t ht).1, ?_⟩, n, t, ht, hnil, heq ▸ hblocks, ?_⟩
  · have hle := (hreached n t ht).2.1
    rwa [StateSet.size, hstates, hsymbols] at hle
  · have hblock : [3, 4] ∈ a.refinedBlocks.map StateSet.toList := by
      rw [hblocks]
      decide
    obtain ⟨b, hb, hlist⟩ := List.mem_map.1 hblock
    refine (hiff 3 (hmem.2 (by decide)) 4 (hmem.2 (by decide))).1 ⟨b, heq ▸ hb, ?_, ?_⟩
    · rw [StateSet.mem_def, hlist]
      decide
    · rw [StateSet.mem_def, hlist]
      decide

end BlockQueue
end Chomsky.Automaton
