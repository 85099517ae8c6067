import Chomsky.Automaton.Minimal
import Chomsky.Proofs.Automaton.Refinement
import Mathlib.Tactic.Choose

/-! # The automaton of the blocks

The blocks that are kept are numbered, and a number accepts what its block accepts later
(`acceptsAt_walk?_merged`). A deterministic automaton for the same language tells the blocks
apart, so it has at least as many states (`size_states_merged_le`).
-/

namespace Chomsky

theorem length_le_of_told_apart {α : Type u} {l : List α} {n : Nat} (R : α → Nat → Prop)
    (hl : l.Nodup) (hex : ∀ x ∈ l, ∃ k < n, R x k)
    (hinj : ∀ x ∈ l, ∀ y ∈ l, ∀ k, R x k → R y k → x = y) : l.length ≤ n := by
  choose! f hf using hex
  have hnodup : (l.map f).Nodup := by
    refine List.pairwise_map.2 (hl.imp_of_mem fun hx hy hne heq => hne ?_)
    exact hinj _ hx _ hy _ (hf _ hx).2 (heq ▸ (hf _ hy).2)
  have hle := length_le_of_nodup hnodup (m := List.range n) fun k hk => by
    obtain ⟨x, hx, rfl⟩ := List.mem_map.1 hk
    exact List.mem_range.2 (hf x hx).1
  rwa [List.length_map, List.length_range] at hle

namespace Automaton

variable {a d : Automaton} {b c : StateSet} {p q r : StateId} {i : SymbolIndex} {k : Nat}
  {w : List String}

theorem mem_keptBlocks_iff :
    b ∈ a.keptBlocks ↔ b ∈ a.refinedBlocks ∧ (a.sink ∉ b ∨ a.start ∈ b) := by
  rw [keptBlocks, List.mem_filter, List.mem_mergeSort, Bool.or_eq_true, decide_eq_true_eq,
    decide_eq_true_eq]

theorem disjoint_keptBlocks (h : a.WellFormed) : DisjointBlocks a.keptBlocks := by
  apply List.Pairwise.filter _
  have hperm := List.mergeSort_perm a.refinedBlocks fun b c => b.least?.getD 0 ≤ c.least?.getD 0
  exact hperm.symm.pairwise (disjointBlocks_refined h) fun hbc q hc hb => hbc q hb hc

theorem mem_keptBlock_iff (h : a.WellFormed) (hb : b ∈ a.keptBlocks) (hp : p ∈ b) :
    q ∈ b ↔ q ∈ a.completedStates ∧ a.SameFuture p q :=
  mem_refinedBlock_iff h (mem_keptBlocks_iff.1 hb).1 hp

theorem exists_keptBlock_start (h : a.WellFormed) : ∃ b ∈ a.keptBlocks, a.start ∈ b := by
  obtain ⟨b, hb, hstart⟩ := exists_refinedBlock h start_mem_completedStates
  exact ⟨b, mem_keptBlocks_iff.2 ⟨hb, Or.inr hstart⟩, hstart⟩

theorem mem_properMembers_iff : q ∈ a.properMembers b ↔ q ∈ b ∧ q ≠ a.sink := by
  rw [properMembers, List.mem_filter, bne_iff_ne]
  rfl

theorem exists_properMember (h : a.WellFormed) (hb : b ∈ a.keptBlocks) :
    ∃ q, q ∈ a.properMembers b := by
  obtain ⟨hb, hsink | hstart⟩ := mem_keptBlocks_iff.1 hb
  · obtain ⟨q, hq⟩ := exists_mem_refinedBlock h hb
    exact ⟨q, mem_properMembers_iff.2 ⟨hq, fun heq => hsink (heq ▸ hq)⟩⟩
  · exact ⟨a.start, mem_properMembers_iff.2 ⟨hstart, h.start_ne_sink⟩⟩

theorem exists_acceptsLater (h : a.WellFormed) (hb : b ∈ a.keptBlocks) (hq : q ∈ b)
    (hsink : a.sink ∉ b) : ∃ w, a.acceptsLater q w = true := by
  refine Classical.byContradiction fun hnone => hsink ?_
  refine (mem_keptBlock_iff h hb hq).2 ⟨sink_mem_completedStates, fun w => ?_⟩
  rw [acceptsLater_sink]
  exact Bool.eq_false_iff.2 fun hw => hnone ⟨w, hw⟩

/-- The number of the class of a state, unless nothing is accepted later. -/
def classOf? (a : Automaton) (q : StateId) : Option Nat := a.blockOf? a.keptBlocks q

theorem mem_of_classOf?_eq_some (hk : a.classOf? q = some k) :
    ∃ b, a.keptBlocks[k]? = some b ∧ q ∈ b ∧ a.sink ∉ b := by
  obtain ⟨hlt, hk, -⟩ := List.findIdx?_eq_some_iff_getElem.1 hk
  rw [Bool.and_eq_true, decide_eq_true_eq, decide_eq_true_eq] at hk
  exact ⟨_, List.getElem?_eq_getElem hlt, hk.1, hk.2⟩

theorem classOf?_eq_some (h : a.WellFormed) (hk : a.keptBlocks[k]? = some b) (hq : q ∈ b)
    (hsink : a.sink ∉ b) : a.classOf? q = some k := by
  cases hclass : a.classOf? q with
  | none =>
    have hnone := List.findIdx?_eq_none_iff.1 hclass b (List.mem_of_getElem? hk)
    simp [hq, hsink] at hnone
  | some l =>
    obtain ⟨c, hl, hqc, -⟩ := mem_of_classOf?_eq_some hclass
    rw [(disjoint_keptBlocks h).eq hl hk hqc hq]

theorem classOf?_eq_none_iff (h : a.WellFormed) (hq : q ∈ a.completedStates) :
    a.classOf? q = none ↔ a.SameFuture q a.sink := by
  constructor
  · intro hnone
    obtain ⟨b, hb, hqb⟩ := exists_refinedBlock h hq
    refine ((mem_refinedBlock_iff h hb hqb).1 (Decidable.byContradiction fun hsink => ?_)).2
    obtain ⟨k, hk⟩ := List.mem_iff_getElem?.1 (mem_keptBlocks_iff.2 ⟨hb, Or.inl hsink⟩)
    rw [classOf?_eq_some h hk hqb hsink] at hnone
    cases hnone
  · intro hfuture
    cases hclass : a.classOf? q with
    | none => rfl
    | some k =>
      obtain ⟨b, hk, hqb, hsink⟩ := mem_of_classOf?_eq_some hclass
      have hb := List.mem_of_getElem? hk
      exact absurd ((mem_keptBlock_iff h hb hqb).2 ⟨sink_mem_completedStates, hfuture⟩) hsink

theorem classOf?_eq_of_sameFuture (h : a.WellFormed) (hq : q ∈ a.completedStates)
    (hr : r ∈ a.completedStates) (hqr : a.SameFuture q r) : a.classOf? q = a.classOf? r := by
  cases hclass : a.classOf? q with
  | none =>
    have hfuture := (classOf?_eq_none_iff h hq).1 hclass
    exact ((classOf?_eq_none_iff h hr).2 (hqr.symm.trans hfuture)).symm
  | some k =>
    obtain ⟨b, hk, hqb, hsink⟩ := mem_of_classOf?_eq_some hclass
    have hrb := (mem_keptBlock_iff h (List.mem_of_getElem? hk) hqb).2 ⟨hr, hqr⟩
    exact (classOf?_eq_some h hk hrb hsink).symm

def blockTarget? (a : Automaton) (b : StateSet) (i : SymbolIndex) : Option Nat :=
  match a.properMembers b with
  | [] => none
  | q :: _ => a.classOf? (a.target q i)

theorem merged_transitions : a.merged.transitions =
    .ofRows a.keptBlocks a.alphabet.size fun b i =>
      (a.blockTarget? b i).map StateSet.singleton := by
  simp only [merged, stored_completedTable, storedRow_tabulateRow, blockTransitions]
  congr 1
  funext b i
  unfold blockTarget? classOf?
  cases a.properMembers b <;> rfl

theorem blockTarget?_eq (h : a.WellFormed) (hb : b ∈ a.keptBlocks) (hq : q ∈ b)
    (hi : i < a.alphabet.size) : a.blockTarget? b i = a.classOf? (a.target q i) := by
  obtain ⟨p, hp⟩ := exists_properMember h hb
  unfold blockTarget?
  split
  · next hnil =>
    rw [hnil] at hp
    cases hp
  · next r l hcons =>
    have hr : r ∈ b := (mem_properMembers_iff.1 (hcons ▸ List.mem_cons_self)).1
    obtain ⟨hq', hrq⟩ := (mem_keptBlock_iff h hb hr).1 hq
    obtain ⟨hr', -⟩ := (mem_keptBlock_iff h hb hq).1 hr
    exact classOf?_eq_of_sameFuture h (h.target_mem_completedStates hr' i)
      (h.target_mem_completedStates hq' i) (h.sameFuture_target hrq hi)

theorem targets_merged (hk : a.keptBlocks[k]? = some b) (hi : i < a.alphabet.size) :
    a.merged.targets k i = .ofOption (a.blockTarget? b i) := by
  rw [targets_eq_of_ofRows merged_transitions hi, hk, Option.bind_some]

theorem isDeterministic_merged : a.merged.isDeterministic :=
  isDeterministic_of_ofRows merged_transitions

theorem mem_accept_merged_iff (h : a.WellFormed) (hk : a.keptBlocks[k]? = some b) (hq : q ∈ b) :
    k ∈ a.merged.accept ↔ q ∈ a.accept := by
  have hmem : k ∈ a.merged.accept ↔ ∃ b, a.keptBlocks[k]? = some b ∧ b.intersects a.accept := by
    simp only [merged, StateSet.mem_ofList, List.mem_map, List.mem_filter,
      List.mem_zipIdx_iff_getElem?, Prod.exists, exists_eq_right]
  have hb := List.mem_of_getElem? hk
  rw [hmem, hk]
  constructor
  · rintro ⟨c, hc, hinter⟩
    obtain rfl := Option.some.inj hc
    obtain ⟨r, hr, hacc⟩ := StateSet.intersects_iff.1 hinter
    exact (h.accept_iff_of_sameFuture ((mem_keptBlock_iff h hb hq).1 hr).2).2 hacc
  · intro hacc
    exact ⟨b, rfl, StateSet.intersects_iff.2 ⟨q, hq, hacc⟩⟩

/-- The number of a block steps to that of the class into which its members step. -/
theorem step?_merged (h : a.WellFormed) (hk : a.keptBlocks[k]? = some b) (hq : q ∈ b) {x : String}
    (hx : a.symbolIndex? x = some i) :
    a.merged.step? a.merged.targets (some k) x = a.classOf? (a.target q i) := by
  have hi := symbolIndex?_lt hx
  rw [step?_eq, show a.merged.symbolIndex? x = a.symbolIndex? x from rfl, hx, Option.bind_some,
    Option.bind_some, targets_merged hk hi, StateSet.least?_ofOption,
    blockTarget?_eq h (List.mem_of_getElem? hk) hq hi]

theorem acceptsAt_walk?_merged (h : a.WellFormed) (hk : a.keptBlocks[k]? = some b) (hq : q ∈ b)
    (w : List String) : a.merged.acceptsAt (a.merged.walk? (some k) w) = a.acceptsLater q w := by
  induction w generalizing k b q with
  | nil =>
    rw [walk?_nil, Bool.eq_iff_iff, h.acceptsLater_nil, ← mem_accept_merged_iff h hk hq]
    exact decide_eq_true_iff
  | cons x w ih =>
    rw [walk?, List.foldl_cons, ← walk?]
    cases hx : a.symbolIndex? x with
    | none =>
      rw [step?_eq_none (show a.merged.symbolIndex? x = none from hx), walk?_none, acceptsLater,
        walk?, List.foldl_cons, step?_eq_none hx, ← walk?, walk?_none]
      rfl
    | some i =>
      rw [step?_merged h hk hq hx, h.acceptsLater_cons q hx]
      cases hclass : a.classOf? (a.target q i) with
      | none =>
        have hq' := ((mem_keptBlock_iff h (List.mem_of_getElem? hk) hq).1 hq).1
        have hnext := h.target_mem_completedStates hq' i
        rw [walk?_none, (classOf?_eq_none_iff h hnext).1 hclass, acceptsLater_sink]
        rfl
      | some l =>
        obtain ⟨c, hl, hc, -⟩ := mem_of_classOf?_eq_some hclass
        exact ih hl hc

theorem exists_block_start_merged (h : a.WellFormed) :
    ∃ b, a.keptBlocks[a.merged.start]? = some b ∧ a.start ∈ b := by
  show ∃ b, a.keptBlocks[(a.keptBlocks.findIdx? (a.start ∈ ·)).getD 0]? = some b ∧ a.start ∈ b
  obtain ⟨b, hb, hstart⟩ := exists_keptBlock_start h
  cases hfind : a.keptBlocks.findIdx? (a.start ∈ ·) with
  | none =>
    have hnone := List.findIdx?_eq_none_iff.1 hfind b hb
    simp [hstart] at hnone
  | some k =>
    obtain ⟨hlt, hk, -⟩ := List.findIdx?_eq_some_iff_getElem.1 hfind
    exact ⟨_, List.getElem?_eq_getElem hlt, of_decide_eq_true hk⟩

theorem eq_start_merged (h : a.WellFormed) (hk : a.keptBlocks[k]? = some b) (hstart : a.start ∈ b) :
    k = a.merged.start := by
  obtain ⟨c, hc, hstart'⟩ := exists_block_start_merged h
  exact (disjoint_keptBlocks h).eq hk hc hstart hstart'

theorem accepts_eq_acceptsLater (h : a.WellFormed) (hdet : a.isDeterministic) (w : List String) :
    a.accepts w = a.acceptsLater a.start w := by
  rw [accepts_eq_acceptsAt hdet, acceptsLater, proper?_of_ne h.start_ne_sink]

theorem accepts_merged (h : a.WellFormed) (hdet : a.isDeterministic) (w : List String) :
    a.merged.accepts w = a.accepts w := by
  obtain ⟨b, hk, hstart⟩ := exists_block_start_merged h
  rw [accepts_eq_acceptsAt isDeterministic_merged, acceptsAt_walk?_merged h hk hstart,
    accepts_eq_acceptsLater h hdet]

theorem stateId?_stateName (hq : q < a.states.size) : a.stateId? (a.stateName q) = some q :=
  OrderedSet.get?_idxOf?_iff.2 (stateName?_eq hq)

theorem stateName_injective (hp : p < a.states.size) (hq : q < a.states.size)
    (hname : a.stateName p = a.stateName q) : p = q := by
  have hid := stateId?_stateName hp
  rw [hname, stateId?_stateName hq] at hid
  exact (Option.some.inj hid).symm

theorem exists_stateName_eq_blockName (hne : ∃ q, q ∈ a.properMembers b) :
    ∃ q ∈ a.properMembers b, a.stateName q = a.blockName b := by
  apply List.mem_map.1
  unfold blockName
  have hmem : ∀ name, name ∈ ((a.properMembers b).map a.stateName).mergeSort (fun x y => x ≤ y) ↔
      name ∈ (a.properMembers b).map a.stateName := fun name => List.mem_mergeSort
  cases hsort : ((a.properMembers b).map a.stateName).mergeSort fun x y => x ≤ y with
  | nil =>
    obtain ⟨q, hq⟩ := hne
    have hq := (hmem _).2 (List.mem_map_of_mem hq)
    rw [hsort] at hq
    cases hq
  | cons name names =>
    rw [hsort] at hmem
    exact (hmem name).1 List.mem_cons_self

theorem reachable_of_mem_properMembers (h : a.WellFormed) (hb : b ∈ a.keptBlocks)
    (hq : q ∈ a.properMembers b) : a.Reachable q := by
  obtain ⟨hq, hne⟩ := mem_properMembers_iff.1 hq
  obtain ⟨hq, -⟩ := (mem_keptBlock_iff h hb hq).1 hq
  exact h.mem_reachableStates_iff.1 ((mem_completedStates_iff.1 hq).resolve_left hne)

theorem lt_of_mem_properMembers (h : a.WellFormed) (hb : b ∈ a.keptBlocks)
    (hq : q ∈ a.properMembers b) : q < a.states.size :=
  h.lt_of_reachable (reachable_of_mem_properMembers h hb hq)

theorem nodup_blockNames (h : a.WellFormed) : (a.keptBlocks.map a.blockName).Nodup := by
  refine List.pairwise_map.2 ((disjoint_keptBlocks h).imp_of_mem fun hb hc hbc hname => ?_)
  obtain ⟨p, hp, hpb⟩ := exists_stateName_eq_blockName (exists_properMember h hb)
  obtain ⟨q, hq, hqc⟩ := exists_stateName_eq_blockName (exists_properMember h hc)
  have hpq := stateName_injective (lt_of_mem_properMembers h hb hp)
    (lt_of_mem_properMembers h hc hq) (hpb.trans (hname.trans hqc.symm))
  subst hpq
  exact hbc p (mem_properMembers_iff.1 hp).1 (mem_properMembers_iff.1 hq).1

theorem size_states_merged (h : a.WellFormed) : a.merged.states.size = a.keptBlocks.length := by
  rw [← OrderedSet.length_toList, show a.merged.states = .ofList (a.keptBlocks.map a.blockName)
    from rfl, OrderedSet.toList_ofList_of_nodup (nodup_blockNames h), List.length_map]

theorem wellFormed_merged (h : a.WellFormed) : a.merged.WellFormed where
  start_lt := by
    obtain ⟨b, hk, -⟩ := exists_block_start_merged h
    rw [size_states_merged h]
    exact (List.getElem?_eq_some_iff.1 hk).1
  accept_lt k hk := by
    simp only [merged, StateSet.mem_ofList, List.mem_map, List.mem_filter,
      List.mem_zipIdx_iff_getElem?, Prod.exists, exists_eq_right] at hk
    obtain ⟨b, hk, -⟩ := hk
    rw [size_states_merged h]
    exact (List.getElem?_eq_some_iff.1 hk).1
  transitions := by
    rw [size_states_merged h, merged_transitions]
    apply Transitions.within_ofRows a.keptBlocks a.blockTarget?
    intro b hb i k hk
    unfold blockTarget? at hk
    split at hk
    · cases hk
    · obtain ⟨c, hk, -⟩ := mem_of_classOf?_eq_some hk
      exact (List.getElem?_eq_some_iff.1 hk).1

theorem accepts_append (hdet : d.isDeterministic) (hw : d.walk? (some d.start) w = some r)
    (v : List String) : d.accepts (w ++ v) = d.acceptsAt (d.walk? (some r) v) := by
  rw [accepts_eq_acceptsAt hdet, walk?_append, hw]

/-- A word leads both to a member of a block and to a state of another automaton. -/
def MeetsAt (a d : Automaton) (b : StateSet) (r : StateId) : Prop :=
  ∃ w, ∃ q ∈ b, a.walk? (some a.start) w = some q ∧ d.walk? (some d.start) w = some r

section Competitor

variable (h : a.WellFormed) (hdet : a.isDeterministic) (hddet : d.isDeterministic)
  (hlang : ∀ w, d.accepts w = a.accepts w)
include h hdet hddet hlang

theorem exists_meetsAt (hd : d.WellFormed) (hb : b ∈ a.keptBlocks) :
    ∃ r < d.states.size, MeetsAt a d b r := by
  by_cases hstart : a.start ∈ b
  · exact ⟨d.start, hd.start_lt, [], a.start, hstart, rfl, rfl⟩
  · have hsink := (mem_keptBlocks_iff.1 hb).2.resolve_right hstart
    obtain ⟨q, hq⟩ := exists_properMember h hb
    obtain ⟨hqb, hne⟩ := mem_properMembers_iff.1 hq
    obtain ⟨w, hrun⟩ := reachable_of_mem_properMembers h hb hq
    have hw := (run_start_iff hdet).1 hrun
    obtain ⟨v, hv⟩ := exists_acceptsLater h hb hqb hsink
    cases hr : d.walk? (some d.start) w with
    | none =>
      have haccepts := hlang (w ++ v)
      rw [accepts_eq_acceptsAt hddet, walk?_append, hr, walk?_none,
        accepts_append hdet hw] at haccepts
      rw [acceptsLater, proper?_of_ne hne, ← haccepts] at hv
      cases hv
    | some r => exact ⟨r, hd.lt_of_walk?_start hr, w, q, hqb, hw, hr⟩

theorem eq_of_meetsAt (hb : b ∈ a.keptBlocks) (hc : c ∈ a.keptBlocks) (hbr : MeetsAt a d b r)
    (hcr : MeetsAt a d c r) : b = c := by
  obtain ⟨u, p, hp, hu, hur⟩ := hbr
  obtain ⟨v, q, hq, hv, hvr⟩ := hcr
  have hfuture : ∀ {w s}, a.walk? (some a.start) w = some s → d.walk? (some d.start) w = some r →
      ∀ v, a.acceptsLater s v = d.acceptsAt (d.walk? (some r) v) := by
    intro w s hs hr v
    rw [← accepts_append hddet hr, hlang, accepts_append hdet hs, acceptsLater,
      proper?_of_ne (Nat.ne_of_lt (h.lt_of_walk?_start hs))]
  have hpq : a.SameFuture p q := fun w => (hfuture hu hur w).trans (hfuture hv hvr w).symm
  have hqb := (mem_keptBlock_iff h hb hp).2 ⟨((mem_keptBlock_iff h hc hq).1 hq).1, hpq⟩
  obtain ⟨k, hk⟩ := List.mem_iff_getElem?.1 hb
  obtain ⟨l, hl⟩ := List.mem_iff_getElem?.1 hc
  obtain rfl := (disjoint_keptBlocks h).eq hk hl hqb hq
  exact Option.some.inj (hk.symm.trans hl)

/-- A deterministic automaton for the same language has at least as many states. -/
theorem size_states_merged_le (hd : d.WellFormed) : a.merged.states.size ≤ d.states.size := by
  rw [size_states_merged h]
  refine length_le_of_told_apart (MeetsAt a d) ?_
    (fun b hb => exists_meetsAt h hdet hddet hlang hd hb)
    fun b hb c hc r => eq_of_meetsAt h hdet hddet hlang hb hc
  refine List.Pairwise.of_map a.blockName (fun b c hne heq => hne (heq ▸ rfl)) (nodup_blockNames h)

end Competitor

end Automaton
end Chomsky
