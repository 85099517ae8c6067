import Chomsky.Proofs.Automaton.Language

/-! # Isomorphic automata

A reduced automaton is deterministic and has no state to spare. Its language determines it up to
the numbers of its states (`exists_isIsomorphism`), and minimization yields reduced automata
(`reduced_merged`). So automata are equivalent if and only if their least automata are isomorphic.
-/

namespace Chomsky.Automaton

variable {a b d e m n : Automaton} {s : StateSet} {i : SymbolIndex} {k l p q r : StateId}
  {x : String} {u v w : List String} {f : StateId → StateId}

/-- A bijection between the states of two automata under which start states, accepting states and
targets correspond. Symbols correspond by name; one that is not in an alphabet has no targets. -/
structure IsIsomorphism (m n : Automaton) (f : StateId → StateId) : Prop where
  bijOn : Set.BijOn f {q | q < m.states.size} {q | q < n.states.size}
  start : f m.start = n.start
  accept : ∀ q < m.states.size, f q ∈ n.accept ↔ q ∈ m.accept
  targets : ∀ q < m.states.size, ∀ x r,
    r ∈ n.moveNamed (.singleton (f q)) x ↔ ∃ p ∈ m.moveNamed (.singleton q) x, f p = r

theorem mem_moveNamed_iff : r ∈ a.moveNamed s x ↔ ∃ q ∈ s, r ∈ a.moveNamed (.singleton q) x := by
  have hmove : ∀ {s}, r ∈ a.moveNamed s x ↔ ∃ q ∈ s, a.Run q [x] r :=
    mem_foldl_moveNamed_iff (w := [x])
  simp [hmove]

theorem WellFormed.lt_of_mem_activeAfter (h : a.WellFormed) (hq : q ∈ a.activeAfter w) :
    q < a.states.size := h.lt_of_run (mem_activeAfter_iff.1 hq) h.start_lt

namespace IsIsomorphism

variable (h : IsIsomorphism m n f) (hm : m.WellFormed)
include h hm

theorem mem_activeAfter_iff : r ∈ n.activeAfter w ↔ ∃ p ∈ m.activeAfter w, f p = r := by
  induction w using List.reverseRecOn generalizing r with
  | nil =>
    show r ∈ StateSet.singleton n.start ↔ ∃ p ∈ StateSet.singleton m.start, f p = r
    simp [h.start, eq_comm]
  | append_singleton w x ih =>
    rw [activeAfter_append_singleton, activeAfter_append_singleton, mem_moveNamed_iff]
    simp only [mem_moveNamed_iff (s := m.activeAfter w)]
    constructor
    · rintro ⟨_, hfq, hr⟩
      obtain ⟨q, hq, rfl⟩ := ih.1 hfq
      obtain ⟨p, hp, rfl⟩ := (h.targets q (hm.lt_of_mem_activeAfter hq) x r).1 hr
      exact ⟨p, ⟨q, hq, hp⟩, rfl⟩
    · rintro ⟨p, ⟨q, hq, hp⟩, rfl⟩
      exact ⟨f q, ih.2 ⟨q, hq, rfl⟩,
        (h.targets q (hm.lt_of_mem_activeAfter hq) x (f p)).2 ⟨p, hp, rfl⟩⟩

theorem accepts_eq (w : List String) : m.accepts w = n.accepts w := by
  rw [Bool.eq_iff_iff, Automaton.accepts_eq, Automaton.accepts_eq, StateSet.intersects_iff,
    StateSet.intersects_iff]
  constructor
  · rintro ⟨q, hq, hacc⟩
    exact ⟨f q, (h.mem_activeAfter_iff hm).2 ⟨q, hq, rfl⟩,
      (h.accept q (hm.lt_of_mem_activeAfter hq)).2 hacc⟩
  · rintro ⟨_, hr, hacc⟩
    obtain ⟨q, hq, rfl⟩ := (h.mem_activeAfter_iff hm).1 hr
    exact ⟨q, hq, (h.accept q (hm.lt_of_mem_activeAfter hq)).1 hacc⟩

end IsIsomorphism

def acceptsAfter (m : Automaton) (k : StateId) (w : List String) : Bool :=
  m.acceptsAt (m.walk? (some k) w)

/-- A deterministic automaton in which words lead to every state, different states accept different
words later, and only the start state may accept none. -/
structure Reduced (m : Automaton) : Prop where
  wellFormed : m.WellFormed
  deterministic : m.isDeterministic
  reachable : ∀ k < m.states.size, ∃ w, m.walk? (some m.start) w = some k
  separated : ∀ k < m.states.size, ∀ l < m.states.size, m.acceptsAfter k = m.acceptsAfter l → k = l
  live : ∀ {w x k}, m.walk? (some m.start) (w ++ [x]) = some k → ∃ v, m.acceptsAfter k v = true

section Unique

/-- A word leads to both states. -/
def Meet (m n : Automaton) (k l : StateId) : Prop := ∃ w, pairAfter m n w = (some k, some l)

theorem meet_iff : Meet m n k l ↔
    ∃ w, m.walk? (some m.start) w = some k ∧ n.walk? (some n.start) w = some l := by
  simp only [Meet, pairAfter, Prod.mk.injEq]

theorem Meet.symm (h : Meet m n k l) : Meet n m l k := by
  obtain ⟨w, hk, hl⟩ := meet_iff.1 h
  exact meet_iff.2 ⟨w, hl, hk⟩

theorem mem_moveNamed_singleton_iff (hdet : m.isDeterministic) :
    r ∈ m.moveNamed (.singleton q) x ↔ m.step? m.targets (some q) x = some r := by
  rw [show StateSet.singleton q = .ofOption (some q) from rfl, moveNamed_ofOption hdet,
    StateSet.mem_ofOption]

variable (hm : m.Reduced) (hn : n.Reduced) (hlang : ∀ w, m.accepts w = n.accepts w)
include hm hn hlang

theorem Meet.acceptsAfter_eq (h : Meet m n k l) : m.acceptsAfter k = n.acceptsAfter l := by
  obtain ⟨w, hk, hl⟩ := meet_iff.1 h
  funext v
  rw [acceptsAfter, ← accepts_append hm.deterministic hk, hlang, accepts_append hn.deterministic hl,
    acceptsAfter]

/-- A word that leads to a state of one automaton leads to a state of the other one, since it is
empty or a beginning of some word that both accept. -/
theorem Reduced.exists_walk? (hk : m.walk? (some m.start) w = some k) :
    ∃ l, n.walk? (some n.start) w = some l := by
  cases w using List.reverseRecOn with
  | nil => exact ⟨n.start, rfl⟩
  | append_singleton w x =>
    obtain ⟨v, hv⟩ := hm.live hk
    cases hl : n.walk? (some n.start) (w ++ [x]) with
    | some l => exact ⟨l, rfl⟩
    | none =>
      rw [acceptsAfter, ← accepts_append hm.deterministic hk, hlang,
        accepts_eq_acceptsAt hn.deterministic, walk?_append, hl, walk?_none] at hv
      cases hv

theorem Reduced.exists_meet (hk : k < m.states.size) : ∃ l < n.states.size, Meet m n k l := by
  obtain ⟨w, hw⟩ := hm.reachable k hk
  obtain ⟨l, hl⟩ := hm.exists_walk? hn hlang hw
  exact ⟨l, hn.wellFormed.lt_of_walk?_start hl, meet_iff.2 ⟨w, hw, hl⟩⟩

theorem Meet.unique (hl : l < n.states.size) (hr : r < n.states.size) (h : Meet m n k l)
    (h' : Meet m n k r) : l = r :=
  hn.separated l hl r hr <|
    (h.acceptsAfter_eq hm hn hlang).symm.trans (h'.acceptsAfter_eq hm hn hlang)

theorem Meet.step (h : Meet m n k l) (hp : m.step? m.targets (some k) x = some p) :
    ∃ r < n.states.size, n.step? n.targets (some l) x = some r ∧ Meet m n p r := by
  obtain ⟨w, hk, hl⟩ := meet_iff.1 h
  have hp' : m.walk? (some m.start) (w ++ [x]) = some p := by rwa [walk?_append, hk]
  obtain ⟨r, hr'⟩ := hm.exists_walk? hn hlang hp'
  have hr : n.step? n.targets (some l) x = some r := by rwa [walk?_append, hl] at hr'
  exact ⟨r, hn.wellFormed.lt_of_walk?_start hr', hr, meet_iff.2 ⟨w ++ [x], hp', hr'⟩⟩

/-- Reduced automata for the same words are isomorphic: states to which the same words lead
correspond. -/
theorem Reduced.exists_isIsomorphism : ∃ f, IsIsomorphism m n f := by
  have hlang' : ∀ w, n.accepts w = m.accepts w := fun w => (hlang w).symm
  choose! f hf using fun k (hk : k < m.states.size) => hm.exists_meet hn hlang hk
  have hunique : ∀ {k l}, k < m.states.size → l < n.states.size → Meet m n k l → f k = l :=
    fun hk hl h => (hf _ hk).2.unique hm hn hlang (hf _ hk).1 hl h
  refine ⟨f, ⟨?_, ?_, ?_⟩, ?_, ?_, ?_⟩
  · exact fun k hk => (hf k hk).1
  · intro k hk l hl heq
    exact (hf k hk).2.symm.unique hn hm hlang' hk hl (heq ▸ (hf l hl).2.symm)
  · intro l hl
    obtain ⟨k, hk, hmeet⟩ := hn.exists_meet hm hlang' hl
    exact ⟨k, hk, hunique hk hl hmeet.symm⟩
  · exact hunique hm.wellFormed.start_lt hn.wellFormed.start_lt (meet_iff.2 ⟨[], rfl, rfl⟩)
  · intro k hk
    have hnil := congrFun ((hf k hk).2.acceptsAfter_eq hm hn hlang) []
    exact decide_eq_decide.1 hnil.symm
  · intro k hk x r
    rw [mem_moveNamed_singleton_iff hn.deterministic]
    simp only [mem_moveNamed_singleton_iff hm.deterministic]
    constructor
    · intro hr
      obtain ⟨p, hp, hstep, hmeet⟩ := (hf k hk).2.symm.step hn hm hlang' hr
      exact ⟨p, hstep, hunique hp (hn.wellFormed.lt_of_step? hr) hmeet.symm⟩
    · rintro ⟨p, hp, rfl⟩
      obtain ⟨r, hr, hstep, hmeet⟩ := (hf k hk).2.step hm hn hlang hp
      rwa [hunique (hm.wellFormed.lt_of_step? hp) hr hmeet]

end Unique

theorem exists_target_of_step? (hp : p < a.states.size)
    (hstep : a.step? a.targets (some p) x = some q) :
    ∃ i, a.symbolIndex? x = some i ∧ a.target p i = q := by
  rw [step?_eq] at hstep
  obtain ⟨i, hx, hleast⟩ := Option.bind_eq_some_iff.1 hstep
  rw [Option.bind_some] at hleast
  exact ⟨i, hx, by rw [target_of_ne (Nat.ne_of_lt hp), hleast, Option.getD_some]⟩

section Merged

variable {b : StateSet} (h : a.WellFormed)
include h

theorem acceptsAfter_merged (hk : a.keptBlocks[k]? = some b) (hq : q ∈ b) :
    a.merged.acceptsAfter k = a.acceptsLater q :=
  funext fun w => acceptsAt_walk?_merged h hk hq w

theorem mem_completedStates_of_walk? (hdet : a.isDeterministic)
    (hw : a.walk? (some a.start) w = some q) : q ∈ a.completedStates :=
  h.mem_completedStates_of_reachable ⟨w, (run_start_iff hdet).2 hw⟩

/-- Where a state of a class comes from has a class, as nothing that starts at the sink leaves its
class. -/
theorem exists_classOf?_of_target (hi : i < a.alphabet.size) (hp : p ∈ a.completedStates)
    (hk : a.classOf? (a.target p i) = some k) : ∃ l, a.classOf? p = some l := by
  cases hl : a.classOf? p with
  | some l => exact ⟨l, rfl⟩
  | none =>
    have hfuture := h.sameFuture_target ((classOf?_eq_none_iff h hp).1 hl) hi
    rw [target_sink] at hfuture
    rw [(classOf?_eq_none_iff h (h.target_mem_completedStates hp i)).2 hfuture] at hk
    cases hk

theorem exists_walk?_merged (hdet : a.isDeterministic) (hw : a.walk? (some a.start) w = some q)
    (hk : a.keptBlocks[k]? = some b) (hq : q ∈ b) :
    ∃ u, a.merged.walk? (some a.merged.start) u = some k := by
  induction w using List.reverseRecOn generalizing q k b with
  | nil =>
    obtain rfl := Option.some.inj hw
    exact ⟨[], congrArg some (eq_start_merged h hk hq).symm⟩
  | append_singleton w x ih =>
    by_cases hsink : a.sink ∈ b
    · have hstart := (mem_keptBlocks_iff.1 (List.mem_of_getElem? hk)).2.resolve_left
        (not_not.2 hsink)
      exact ⟨[], congrArg some (eq_start_merged h hk hstart).symm⟩
    · have hclass := classOf?_eq_some h hk hq hsink
      rw [walk?_append] at hw
      cases hp : a.walk? (some a.start) w with
      | none =>
        rw [hp, walk?_none] at hw
        cases hw
      | some p =>
        rw [hp] at hw
        obtain ⟨i, hx, rfl⟩ := exists_target_of_step? (h.lt_of_walk?_start hp) hw
        obtain ⟨l, hl⟩ := exists_classOf?_of_target h (symbolIndex?_lt hx)
          (mem_completedStates_of_walk? h hdet hp) hclass
        obtain ⟨c, hc, hpc, -⟩ := mem_of_classOf?_eq_some hl
        obtain ⟨u, hu⟩ := ih hp hc hpc
        refine ⟨u ++ [x], ?_⟩
        rw [walk?_append, hu]
        exact (step?_merged h hc hpc hx).trans hclass

theorem exists_acceptsAfter_of_step? (hk : k < a.merged.states.size)
    (hstep : a.merged.step? a.merged.targets (some k) x = some l) :
    ∃ w, a.merged.acceptsAfter l w = true := by
  rw [size_states_merged h] at hk
  have hb := List.getElem?_eq_getElem hk
  obtain ⟨q, hq⟩ := exists_properMember h (List.mem_of_getElem? hb)
  have hq := (mem_properMembers_iff.1 hq).1
  cases hx : a.symbolIndex? x with
  | none =>
    rw [step?_eq_none (show a.merged.symbolIndex? x = none from hx)] at hstep
    cases hstep
  | some i =>
    rw [step?_merged h hb hq hx] at hstep
    obtain ⟨c, hc, hmem, hsink⟩ := mem_of_classOf?_eq_some hstep
    rw [acceptsAfter_merged h hc hmem]
    exact exists_acceptsLater h (List.mem_of_getElem? hc) hmem hsink

/-- What minimization yields has no state to spare. -/
theorem reduced_merged (hdet : a.isDeterministic) : a.merged.Reduced where
  wellFormed := wellFormed_merged h
  deterministic := isDeterministic_merged
  reachable k hk := by
    rw [size_states_merged h] at hk
    have hb := List.getElem?_eq_getElem hk
    have hmem := List.mem_of_getElem? hb
    obtain ⟨q, hq⟩ := exists_properMember h hmem
    obtain ⟨w, hrun⟩ := reachable_of_mem_properMembers h hmem hq
    have hq := (mem_properMembers_iff.1 hq).1
    exact exists_walk?_merged h hdet ((run_start_iff hdet).1 hrun) hb hq
  separated k hk l hl heq := by
    rw [size_states_merged h] at hk hl
    have hb := List.getElem?_eq_getElem hk
    have hc := List.getElem?_eq_getElem hl
    obtain ⟨p, hp⟩ := exists_properMember h (List.mem_of_getElem? hb)
    obtain ⟨q, hq⟩ := exists_properMember h (List.mem_of_getElem? hc)
    have hp := (mem_properMembers_iff.1 hp).1
    have hq := (mem_properMembers_iff.1 hq).1
    rw [acceptsAfter_merged h hb hp, acceptsAfter_merged h hc hq] at heq
    have hqb := (mem_keptBlock_iff h (List.mem_of_getElem? hb) hp).2
      ⟨((mem_keptBlock_iff h (List.mem_of_getElem? hc) hq).1 hq).1, congrFun heq⟩
    exact (disjoint_keptBlocks h).eq hb hc hqb hq
  live {w x k} hw := by
    rw [walk?_append] at hw
    cases hl : a.merged.walk? (some a.merged.start) w with
    | none =>
      rw [hl, walk?_none] at hw
      cases hw
    | some l =>
      rw [hl] at hw
      exact exists_acceptsAfter_of_step? h ((wellFormed_merged h).lt_of_walk?_start hl) hw

end Merged

/-- Automata that can be made deterministic are equivalent if and only if their least automata are
isomorphic. -/
theorem equivalent_iff_isomorphic (ha : a.Obtainable) (hb : b.Obtainable)
    (hd : a.toDeterministic = .ok d) (he : b.toDeterministic = .ok e) :
    ∃ m n, a.minimize = .ok m ∧ b.minimize = .ok n ∧
      (a.equivalent b = .ok true ↔ ∃ f, IsIsomorphism m n f) := by
  obtain ⟨hdwf, hddet, -⟩ := toDeterministic_eq_ok ha.wellFormed hd
  obtain ⟨hewf, hedet, -⟩ := toDeterministic_eq_ok hb.wellFormed he
  refine ⟨d.merged, e.merged, map_eq_ok_iff.2 ⟨d, hd, rfl⟩, map_eq_ok_iff.2 ⟨e, he, rfl⟩, ?_⟩
  have hequivalent : a.equivalent b = .ok (d.agreesOnWords e) := by
    rw [equivalent, hd, he]
    rfl
  rw [hequivalent, Except.ok.injEq, agreesOnWords_iff hdwf hewf hddet hedet]
  simp only [← accepts_merged hdwf hddet, ← accepts_merged hewf hedet]
  constructor
  · exact (reduced_merged hdwf hddet).exists_isIsomorphism (reduced_merged hewf hedet)
  · rintro ⟨f, hf⟩
    exact hf.accepts_eq (wellFormed_merged hdwf)

/-- Remember the last letter, the letters in another order. -/
def remembersLast : AutomatonDefinition where
  transitions := [("0", "b", "2"), ("0", "a", "1"), ("1", "b", "2"), ("1", "a", "1"),
    ("2", "b", "2"), ("2", "a", "1")]
  start := some "0"
  accept := ["1"]

theorem equivalent_remembersA_remembersLast : (remembersA.build.bind fun a =>
    remembersLast.build.bind fun b => a.equivalent b) = .ok true := by
  decide +kernel

theorem equivalent_iff_isomorphic_remembersA : ∃ a b m n, remembersA.build = .ok a ∧
    remembersLast.build = .ok b ∧ a.minimize = .ok m ∧ b.minimize = .ok n ∧
      a.equivalent b = .ok true ∧ ∃ f, IsIsomorphism m n f := by
  obtain ⟨a, ha, heq⟩ := bind_eq_ok_iff.1 equivalent_remembersA_remembersLast
  obtain ⟨b, hb, heq⟩ := bind_eq_ok_iff.1 heq
  obtain ⟨d, hd, heq'⟩ := bind_eq_ok_iff.1 heq
  obtain ⟨e, he, -⟩ := bind_eq_ok_iff.1 heq'
  obtain ⟨m, n, hm, hn, hiff⟩ := equivalent_iff_isomorphic (.build ha) (.build hb) hd he
  exact ⟨a, b, m, n, ha, hb, hm, hn, heq, hiff.1 heq⟩

end Chomsky.Automaton
