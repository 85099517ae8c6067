import Chomsky.Proofs.Automaton.Deterministic
import Chomsky.Proofs.Automaton.Isomorphism

/-! # The least automaton as a quotient

Minimization keeps the reachable states that lead to acceptance, and the start state. Each of them
is in the block of its class (`Retained.exists_block`), so that the least automaton is made of the
classes of states that accept the same words (`isLiveQuotient_merged`). A class has the least of
the names of its members, unless no word is accepted and the block of the start state holds states
that are not kept (`isLeast_stateName_merged`).
-/

namespace Chomsky.Automaton

variable {a d m : Automaton} {b : StateSet} {q r : StateId} {i : SymbolIndex} {k : Nat}
  {w : List String}

def Live (a : Automaton) (q : StateId) : Prop := ∃ w, ∃ r ∈ a.accept, a.Run q w r

/-- A reachable state that leads to acceptance or is the start state. -/
def Retained (a : Automaton) (q : StateId) : Prop := a.Reachable q ∧ (a.Live q ∨ q = a.start)

/-- The states of `m` are the classes of the retained states of `d` that accept the same words. The
target of a class is that of its members, and there is none if their targets are not live. -/
structure IsLiveQuotient (d m : Automaton) (h : StateId → StateId) : Prop where
  alphabet : m.alphabet = d.alphabet
  image : h '' {q | d.Retained q} = {k | k < m.states.size}
  start : h d.start = m.start
  accept : ∀ q, d.Retained q → (h q ∈ m.accept ↔ q ∈ d.accept)
  targets : ∀ q, d.Retained q → ∀ i k,
    k ∈ m.targets (h q) i ↔ ∃ r ∈ d.targets q i, d.Live r ∧ h r = k
  eq_iff : ∀ q, d.Retained q → ∀ r, d.Retained r →
    (h q = h r ↔ ∀ w, d.acceptsFrom (.singleton q) w = d.acceptsFrom (.singleton r) w)

theorem retained_start : a.Retained a.start := ⟨reachable_start, Or.inr rfl⟩

theorem live_iff_acceptsFrom : a.Live q ↔ ∃ w, a.acceptsFrom (.singleton q) w := by
  simp only [Live, acceptsFrom_iff, StateSet.mem_singleton, exists_eq_left]

theorem acceptsFrom_singleton (hdet : a.isDeterministic) :
    a.acceptsFrom (.singleton q) w = a.acceptsAfter q w := by
  rw [acceptsFrom_eq, show StateSet.singleton q = .ofOption (some q) from rfl,
    foldl_moveNamed_ofOption hdet, ofOption_intersects, acceptsAfter]

theorem acceptsAfter_eq_acceptsLater (hq : q ≠ a.sink) :
    a.acceptsAfter q w = a.acceptsLater q w := by
  rw [acceptsAfter, acceptsLater, proper?_of_ne hq]

theorem isLeast_blockName (hne : ∃ q, q ∈ a.properMembers b) :
    IsLeast (a.stateName '' {q | q ∈ a.properMembers b}) (a.blockName b) := by
  refine ⟨exists_stateName_eq_blockName hne, ?_⟩
  rintro _ ⟨q, hq, rfl⟩
  have hsorted := List.pairwise_mergeSort' (· ≤ ·) ((a.properMembers b).map a.stateName)
  have hmem : a.stateName q ∈ ((a.properMembers b).map a.stateName).mergeSort fun x y => x ≤ y :=
    List.mem_mergeSort.2 (List.mem_map_of_mem hq)
  unfold blockName
  cases hsort : ((a.properMembers b).map a.stateName).mergeSort fun x y => x ≤ y with
  | nil =>
    rw [hsort] at hmem
    cases hmem
  | cons name names =>
    rw [hsort] at hmem hsorted
    rcases List.mem_cons.1 hmem with heq | hmem
    · exact heq.ge
    · exact List.rel_of_pairwise_cons hsorted hmem

section Merged

variable (h : d.WellFormed) (hdet : d.isDeterministic)
include h hdet

theorem not_live_iff (hq : d.Reachable q) : ¬d.Live q ↔ d.SameFuture q d.sink := by
  rw [live_iff_acceptsFrom, not_exists]
  refine forall_congr' fun w => ?_
  rw [acceptsFrom_singleton hdet, acceptsAfter_eq_acceptsLater (h.ne_sink_of_reachable hq),
    acceptsLater_sink, Bool.not_eq_true]

theorem live_iff_classOf? (hq : d.Reachable q) : d.Live q ↔ ∃ k, d.classOf? q = some k := by
  rw [← not_iff_not, not_live_iff h hdet hq,
    ← classOf?_eq_none_iff h (h.mem_completedStates_of_reachable hq)]
  simp [Option.eq_none_iff_forall_ne_some]

/-- The number of the class of a retained state. The start state is in a block even if it has no
class. -/
def classNumber (d : Automaton) (q : StateId) : StateId := (d.classOf? q).getD d.merged.start

theorem Retained.exists_block (hq : d.Retained q) :
    ∃ b, d.keptBlocks[d.classNumber q]? = some b ∧ q ∈ b := by
  unfold classNumber
  cases hclass : d.classOf? q with
  | some k =>
    obtain ⟨b, hk, hqb, -⟩ := mem_of_classOf?_eq_some hclass
    exact ⟨b, hk, hqb⟩
  | none =>
    have hlive : ¬d.Live q := by
      rw [live_iff_classOf? h hdet hq.1, hclass]
      simp
    exact hq.2.resolve_left hlive ▸ exists_block_start_merged h

theorem Retained.classNumber_eq (hq : d.Retained q) (hk : d.keptBlocks[k]? = some b)
    (hqb : q ∈ b) : d.classNumber q = k := by
  obtain ⟨c, hc, hqc⟩ := hq.exists_block h hdet
  exact (disjoint_keptBlocks h).eq hc hk hqc hqb

theorem retained_of_mem_properMembers (hb : b ∈ d.keptBlocks) (hsink : d.sink ∉ b)
    (hq : q ∈ d.properMembers b) : d.Retained q := by
  have hreach := reachable_of_mem_properMembers h hb hq
  obtain ⟨k, hk⟩ := List.mem_iff_getElem?.1 hb
  have hclass := classOf?_eq_some h hk (mem_properMembers_iff.1 hq).1 hsink
  exact ⟨hreach, Or.inl ((live_iff_classOf? h hdet hreach).2 ⟨k, hclass⟩)⟩

theorem exists_retained_mem (hb : b ∈ d.keptBlocks) : ∃ q ∈ b, d.Retained q := by
  obtain ⟨-, hsink | hstart⟩ := mem_keptBlocks_iff.1 hb
  · obtain ⟨q, hq⟩ := exists_properMember h hb
    exact ⟨q, (mem_properMembers_iff.1 hq).1, retained_of_mem_properMembers h hdet hb hsink hq⟩
  · exact ⟨d.start, hstart, retained_start⟩

theorem classOf?_eq_some_iff (hr : d.Reachable r) :
    d.classOf? r = some k ↔ d.Live r ∧ d.classNumber r = k := by
  rw [live_iff_classOf? h hdet hr, classNumber]
  cases d.classOf? r <;> simp

theorem mem_targets_merged_iff (hq : d.Retained q) :
    k ∈ d.merged.targets (d.classNumber q) i ↔
      ∃ r ∈ d.targets q i, d.Live r ∧ d.classNumber r = k := by
  by_cases hi : i < d.alphabet.size
  · obtain ⟨b, hb, hqb⟩ := hq.exists_block h hdet
    rw [targets_merged hb hi, blockTarget?_eq h (List.mem_of_getElem? hb) hqb hi,
      StateSet.mem_ofOption, target_of_ne (h.ne_sink_of_reachable hq.1),
      targets_eq_ofOption hdet q i, StateSet.least?_ofOption]
    cases hleast : (d.targets q i).least? with
    | none =>
      have hsink : d.classOf? d.sink = none :=
        (classOf?_eq_none_iff h sink_mem_completedStates).2 (.refl _)
      simp [hsink]
    | some r =>
      have hr := h.reachable_of_mem_targets hq.1 (StateSet.mem_of_least? hleast)
      rw [Option.getD_some, classOf?_eq_some_iff h hdet hr]
      simp
  · have hout : ∀ {r}, r ∉ d.targets q i := fun hr => hi (h.symbol_lt_of_mem_targets hr)
    constructor
    · exact fun hk => absurd ((wellFormed_merged h).symbol_lt_of_mem_targets hk) hi
    · rintro ⟨r, hr, -⟩
      exact absurd hr hout

theorem classNumber_eq_iff (hq : d.Retained q) (hr : d.Retained r) :
    d.classNumber q = d.classNumber r ↔
      ∀ w, d.acceptsFrom (.singleton q) w = d.acceptsFrom (.singleton r) w := by
  simp only [acceptsFrom_singleton hdet, acceptsAfter_eq_acceptsLater (h.ne_sink_of_reachable hq.1),
    acceptsAfter_eq_acceptsLater (h.ne_sink_of_reachable hr.1)]
  obtain ⟨b, hb, hqb⟩ := hq.exists_block h hdet
  have hmem := mem_keptBlock_iff h (q := r) (List.mem_of_getElem? hb) hqb
  constructor
  · intro heq
    obtain ⟨c, hc, hrc⟩ := hr.exists_block h hdet
    obtain rfl := Option.some.inj ((heq ▸ hb).symm.trans hc)
    exact (hmem.1 hrc).2
  · intro hsame
    have hrb := hmem.2 ⟨h.mem_completedStates_of_reachable hr.1, hsame⟩
    exact (hr.classNumber_eq h hdet hb hrb).symm

/-- What minimization yields is the quotient of the live part of a deterministic automaton. -/
theorem isLiveQuotient_merged : IsLiveQuotient d d.merged d.classNumber where
  alphabet := rfl
  image := by
    ext k
    rw [Set.mem_ofPred_eq, size_states_merged h]
    constructor
    · rintro ⟨q, hq, rfl⟩
      obtain ⟨b, hb, -⟩ := Retained.exists_block h hdet hq
      exact (List.getElem?_eq_some_iff.1 hb).1
    · intro hk
      have hb := List.getElem?_eq_getElem hk
      obtain ⟨q, hqb, hq⟩ := exists_retained_mem h hdet (List.mem_of_getElem? hb)
      exact ⟨q, hq, hq.classNumber_eq h hdet hb hqb⟩
  start := by
    obtain ⟨b, hb, hstart⟩ := Retained.exists_block h hdet retained_start
    exact eq_start_merged h hb hstart
  accept q hq := by
    obtain ⟨b, hb, hqb⟩ := hq.exists_block h hdet
    exact mem_accept_merged_iff h hb hqb
  targets q hq i k := mem_targets_merged_iff h hdet hq
  eq_iff q hq r hr := classNumber_eq_iff h hdet hq hr

omit hdet in
theorem stateName_merged (hk : d.keptBlocks[k]? = some b) :
    d.merged.stateName k = d.blockName b := by
  rw [stateName, stateName?, ← OrderedSet.getElem?_toList,
    show d.merged.states = .ofList (d.keptBlocks.map d.blockName) from rfl,
    OrderedSet.toList_ofList_of_nodup (nodup_blockNames h), List.getElem?_map, hk]
  rfl

theorem sink_not_mem_keptBlock (hlive : d.Live d.start) (hb : b ∈ d.keptBlocks) : d.sink ∉ b := by
  intro hsink
  have hstart := (mem_keptBlocks_iff.1 hb).2.resolve_left (not_not.2 hsink)
  exact (not_live_iff h hdet reachable_start).2 ((mem_keptBlock_iff h hb hstart).1 hsink).2 hlive

theorem isLeast_stateName_merged (hlive : d.Live d.start) (hk : k < d.merged.states.size) :
    IsLeast (d.stateName '' {q | d.Retained q ∧ d.classNumber q = k}) (d.merged.stateName k) := by
  rw [size_states_merged h] at hk
  have hb := List.getElem?_eq_getElem hk
  have hmem := List.mem_of_getElem? hb
  -- the block of the sink is not kept, so that all proper members of a block are retained
  have hclass : {q | d.Retained q ∧ d.classNumber q = k} =
      {q | q ∈ d.properMembers d.keptBlocks[k]} := by
    ext q
    constructor
    · rintro ⟨hq, rfl⟩
      obtain ⟨c, hc, hqc⟩ := hq.exists_block h hdet
      obtain rfl := Option.some.inj (hb.symm.trans hc)
      exact mem_properMembers_iff.2 ⟨hqc, h.ne_sink_of_reachable hq.1⟩
    · intro hq
      have hret := retained_of_mem_properMembers h hdet hmem
        (sink_not_mem_keptBlock h hdet hlive hmem) hq
      exact ⟨hret, hret.classNumber_eq h hdet hb (mem_properMembers_iff.1 hq).1⟩
  rw [hclass, stateName_merged h hb]
  exact isLeast_blockName (exists_properMember h hmem)

end Merged

/-- The least automaton is the quotient of the live reachable part of the deterministic form. If
some word is accepted, the least name of the members of a class is that of the class. -/
theorem minimize_isLiveQuotient (ha : a.Obtainable) (hd : a.toDeterministic = .ok d)
    (hm : a.minimize = .ok m) : ∃ h, IsLiveQuotient d m h ∧
      ((∃ w, a.accepts w) → ∀ k < m.states.size,
        IsLeast (d.stateName '' {q | d.Retained q ∧ h q = k}) (m.stateName k)) := by
  obtain ⟨hwf, hdet, haccepts⟩ := toDeterministic_eq_ok ha.wellFormed hd
  obtain rfl : d.merged = m := Except.ok.inj ((map_eq_ok_iff.2 ⟨d, hd, rfl⟩).symm.trans hm)
  refine ⟨d.classNumber, isLiveQuotient_merged hwf hdet, ?_⟩
  rintro ⟨w, hw⟩ k hk
  have hlive : d.Live d.start := live_iff_acceptsFrom.2 ⟨w, (haccepts w).trans hw⟩
  exact isLeast_stateName_merged hwf hdet hlive hk

/-- The states `l` and `r` accept the same words, `t` does not lead to acceptance, and no word leads
to `u`. -/
def forked : AutomatonDefinition where
  transitions := [("s", "a", "r"), ("s", "b", "l"), ("l", "a", "f"), ("r", "a", "e"),
    ("l", "b", "t"), ("u", "a", "f")]
  start := some "s"
  accept := ["e", "f"]

theorem minimize_forked : forked.build.map (fun a =>
    (a.isDeterministic, a.accepts ["a", "a"], a.merged.states.toList)) =
      .ok (true, true, ["s", "e", "l"]) := by
  cbv

theorem minimize_isLiveQuotient_forked : ∃ a m h, forked.build = .ok a ∧
    a.toDeterministic = .ok a ∧ a.minimize = .ok m ∧ m.states.toList = ["s", "e", "l"] ∧
      IsLiveQuotient a m h ∧ ∀ k < m.states.size,
        IsLeast (a.stateName '' {q | a.Retained q ∧ h q = k}) (m.stateName k) := by
  obtain ⟨a, ha, hvalues⟩ := map_eq_ok_iff.1 minimize_forked
  obtain ⟨hdet, haccepts, hnames⟩ := by simpa only [Prod.mk.injEq] using hvalues
  have hd : a.toDeterministic = .ok a := if_pos hdet
  have hm : a.minimize = .ok a.merged := map_eq_ok_iff.2 ⟨a, hd, rfl⟩
  obtain ⟨h, hquotient, hleast⟩ := minimize_isLiveQuotient (.build ha) hd hm
  exact ⟨a, a.merged, h, ha, hd, hm, hnames, hquotient, hleast ⟨_, haccepts⟩⟩

end Chomsky.Automaton
