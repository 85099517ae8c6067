import Chomsky.Proofs.Automaton.Subsets
import Chomsky.Proofs.Lookup.Basic

/-! # Look-ups of the subset construction

The construction as one search: sets are numbered when they are first met, and expanded in that
order. It looks up the number of the set that it expands, the names of members, of symbols and of
numbered sets. Step by step it does what `discover` does (`simulates_expand`), so that no look-up
fails and the search ends within the rounds foreseen (`checkedSubsetConstruction_eq`).
-/

namespace Chomsky.Automaton

/-- Numbered sets of states, the names under which they are numbered, what is known of the
automaton, and the sets that are still to be expanded. -/
structure SubsetSearch where
  numbers : List (StateSet × StateId) := []
  names : List String := []
  transitions : Transitions := ∅
  accept : StateSet := ∅
  pending : List StateSet := []

variable (a : Automaton)

def checkedSubsetName (s : StateSet) : Except Fault String := do
  let members ← a.checkedNames s.toList
  return String.join (members.mergeSort fun x y => x ≤ y)

def checkedDescription (s : StateSet) : Except Fault String := do
  let members ← a.checkedNames s.toList
  return "\x7b" ++ ", ".intercalate members ++ "\x7d"

namespace SubsetSearch

def push (t : SubsetSearch) (s : StateSet) (name : String) : SubsetSearch where
  numbers := t.numbers ++ [(s, t.names.length)]
  names := t.names ++ [name]
  transitions := t.transitions
  accept := if s.intersects a.accept then t.accept.insert t.names.length else t.accept
  pending := t.pending ++ [s]

/-- Number a new set. It fails if the name is taken. -/
def enter (t : SubsetSearch) (s : StateSet) : Except Fault (StateId × SubsetSearch) := do
  let name ← a.checkedSubsetName s
  match t.names.idxOf? name with
  | none => return (t.names.length, t.push a s name)
  | some number => do
    let (owner, _) ← demand (t.numbers.find? fun entry => entry.2 == number)
    let first ← a.checkedDescription owner
    let second ← a.checkedDescription s
    let taken ← demand t.names[number]?
    throw (.rejected (.nameCollision first second taken))

def numberOf (t : SubsetSearch) (s : StateSet) : Except Fault (StateId × SubsetSearch) :=
  match t.numbers.lookup s with
  | some number => .ok (number, t)
  | none => t.enter a s

def expandBy (s : StateSet) (number : StateId) (t : SubsetSearch) (i : SymbolIndex) :
    Except Fault SubsetSearch :=
  if (a.move s i).isEmpty then .ok t
  else do
    let (target, t) ← t.numberOf a (a.move s i)
    let _ ← demand t.names[number]?
    let _ ← demand (a.symbolName? i)
    let _ ← demand t.names[target]?
    return { t with transitions := t.transitions.add number i target }

def expand : Nat → SubsetSearch → Except Fault SubsetSearch
  | fuel, t =>
    match t.pending with
    | [] => .ok t
    | s :: pending =>
      match fuel with
      | 0 => .error .unfinished
      | fuel + 1 => do
        let number ← demand (t.numbers.lookup s)
        let t ← a.symbols.foldlM (expandBy a s number) { t with pending }
        expand fuel t

end SubsetSearch

def checkedSubsetConstruction : Except Fault Automaton := do
  let (start, t) ← SubsetSearch.enter a {} (.singleton a.start)
  let t ← t.expand a (Nat.pow 2 a.states.size + 1)
  return {
    states := .ofList t.names
    alphabet := a.alphabet
    transitions := t.transitions
    start
    accept := t.accept }

def rejectClash (clash : StateSet × StateSet) : Fault :=
  .rejected (.nameCollision (a.describe clash.1) (a.describe clash.2) (a.subsetName clash.2))

variable {a} {s b : StateSet} {i : SymbolIndex} {k : Nat}

theorem checkedSubsetName_eq (hs : ∀ q ∈ s, q < a.states.size) :
    a.checkedSubsetName s = .ok (a.subsetName s) := by
  rw [checkedSubsetName, checkedNames_eq hs]
  rfl

theorem checkedDescription_eq (hs : ∀ q ∈ s, q < a.states.size) :
    a.checkedDescription s = .ok (a.describe s) := by
  rw [checkedDescription, checkedNames_eq hs]
  rfl

/-- A search runs like a computation that may end with a clash, and results are related. -/
def Simulates {α : Type} {β : Type} (a : Automaton) (x : Except Fault α)
    (y : Except (StateSet × StateSet) β) (R : α → β → Prop) : Prop :=
  match y with
  | .ok v => ∃ u, x = .ok u ∧ R u v
  | .error clash => x = .error (a.rejectClash clash)

namespace Simulates

variable {α β γ δ : Type} {x : Except Fault α} {y : Except (StateSet × StateSet) β}
  {R : α → β → Prop} {S : γ → δ → Prop} {f : α → Except Fault γ}
  {g : β → Except (StateSet × StateSet) δ}

theorem bind (h : Simulates a x y R) (hf : ∀ u v, R u v → Simulates a (f u) (g v) S) :
    Simulates a (x >>= f) (y >>= g) S := by
  cases y with
  | error clash =>
    rw [show x = .error (a.rejectClash clash) from h]
    rfl
  | ok v =>
    obtain ⟨u, rfl, huv⟩ := h
    exact hf u v huv

theorem mono {R' : α → β → Prop} (h : Simulates a x y R) (hR : ∀ u v, R u v → R' u v) :
    Simulates a x y R' := by
  cases y with
  | error clash => exact h
  | ok v =>
    obtain ⟨u, hu, huv⟩ := h
    exact ⟨u, hu, hR u v huv⟩

end Simulates

/-- The edges that some steps of the search yield, each a numbered set and a symbol. -/
def edgesOf (d : Numbering a.subsetName) (steps : List (StateSet × StateId × SymbolIndex)) :
    List (StateId × SymbolIndex × StateId) :=
  steps.filterMap fun (s, number, i) => (d.idxOf? (a.move s i)).map fun r => (number, i, r)

namespace SubsetSearch

variable {t : SubsetSearch} {d d' : Numbering a.subsetName} {done : Nat}
  {steps : List (StateSet × StateId × SymbolIndex)}

/-- A search that has found the sets of a numbering and expanded some of them by some symbols, and
whose pending sets are those from a number on. -/
structure Tracks (t : SubsetSearch) (d : Numbering a.subsetName) (done : Nat)
    (steps : List (StateSet × StateId × SymbolIndex)) : Prop where
  numbers : t.numbers = d.toList.zipIdx
  names : t.names = d.toList.map a.subsetName
  transitions : t.transitions =
    (edgesOf d steps).foldl (fun ts (q, i, r) => Transitions.add ts q i r) ∅
  accept : ∀ q, q ∈ t.accept ↔ ∃ s, d.toList[q]? = some s ∧ s.intersects a.accept
  pending : t.pending = d.toList.drop done
  lt : ∀ s ∈ d.toList, ∀ q ∈ s, q < a.states.size
  nonempty : ∀ s ∈ d.toList, ¬s.isEmpty
  entered : ∀ s number i, (s, number, i) ∈ steps → (a.move s i).isEmpty ∨ a.move s i ∈ d.toList

namespace Tracks

variable (ht : t.Tracks d done steps)
include ht

theorem length_names : t.names.length = d.toList.length := by rw [ht.names, List.length_map]

theorem lookup_eq_some_iff : t.numbers.lookup s = some k ↔ d.toList[k]? = some s := by
  rw [ht.numbers]
  exact lookup_zipIdx_eq_some_iff d.nodup_toList

theorem getElem?_names (hk : d.toList[k]? = some s) : t.names[k]? = some (a.subsetName s) := by
  rw [ht.names, List.getElem?_map, hk, Option.map_some]

theorem length_le : d.toList.length ≤ Nat.pow 2 a.states.size := by
  rw [← StateSet.length_below]
  exact length_le_of_nodup d.nodup_toList fun s hs => StateSet.mem_below.2 (ht.lt s hs)

theorem edgesOf_eq (hpre : d.toList <+: d'.toList) (hne : ∀ s ∈ d'.toList, ¬s.isEmpty) :
    edgesOf d' steps = edgesOf d steps := by
  refine List.filterMap_congr ?_
  rintro ⟨s, number, i⟩ hstep
  have hidx : d'.idxOf? (a.move s i) = d.idxOf? (a.move s i) := by
    rcases ht.entered s number i hstep with hempty | hmem
    · have hnone : ∀ e : Numbering a.subsetName, (∀ s ∈ e.toList, ¬s.isEmpty) →
          e.idxOf? (a.move s i) = none := fun e he =>
        Option.eq_none_iff_forall_ne_some.2 fun k hk =>
          he _ (List.mem_of_getElem? (Numbering.idxOf?_eq_some_iff.1 hk)) hempty
      rw [hnone d' hne, hnone d ht.nonempty]
    · obtain ⟨k, hk⟩ := List.mem_iff_getElem?.1 hmem
      rw [Numbering.idxOf?_eq_some_iff.2 hk, Numbering.idxOf?_eq_some_iff]
      obtain ⟨hlt, heq⟩ := List.getElem?_eq_some_iff.1 hk
      rw [List.prefix_iff_getElem?.1 hpre k hlt, heq]
  simp only [hidx]

theorem push (hlt : ∀ q ∈ s, q < a.states.size) (hne : ¬s.isEmpty) (hdone : done ≤ d.toList.length)
    (hinsert : d'.toList = d.toList ++ [s]) :
    (t.push a s (a.subsetName s)).Tracks d' done steps := by
  have hmem : ∀ {u}, u ∈ d'.toList → u ∈ d.toList ∨ u = s := by
    intro u hu
    rwa [hinsert, List.mem_append, List.mem_singleton] at hu
  have hnonempty : ∀ u ∈ d'.toList, ¬u.isEmpty := fun u hu =>
    (hmem hu).elim (ht.nonempty u) fun heq => heq ▸ hne
  constructor
  case numbers =>
    simp [SubsetSearch.push, hinsert, ht.numbers, ht.length_names, List.zipIdx_append]
  case names => simp [SubsetSearch.push, hinsert, ht.names]
  case transitions =>
    rw [ht.edgesOf_eq (hinsert ▸ List.prefix_append _ _) hnonempty]
    exact ht.transitions
  case accept =>
    intro q
    have hget : ∀ u, d'.toList[q]? = some u ↔
        d.toList[q]? = some u ∨ q = d.toList.length ∧ u = s := by
      intro u
      rw [hinsert]
      grind
    simp only [hget, or_and_right, exists_or, ← ht.accept, SubsetSearch.push, ht.length_names]
    split
    · next hs =>
      rw [StateSet.mem_insert, or_comm]
      refine or_congr_right ⟨fun hq => ⟨s, ⟨hq, rfl⟩, hs⟩, ?_⟩
      rintro ⟨_, ⟨hq, -⟩, -⟩
      exact hq
    · next hs =>
      refine (or_iff_left ?_).symm
      rintro ⟨_, ⟨-, rfl⟩, hs'⟩
      exact hs hs'
  case pending =>
    rw [hinsert, List.drop_append_of_le_length hdone, ← ht.pending]
    rfl
  case lt => exact fun u hu => (hmem hu).elim (ht.lt u) fun heq => heq ▸ hlt
  case nonempty => exact hnonempty
  case entered =>
    intro u number i hstep
    exact (ht.entered u number i hstep).imp_right fun hu => hinsert ▸ List.mem_append_left _ hu

theorem enter_eq_ok (hlt : ∀ q ∈ s, q < a.states.size)
    (hname : d.hasLabel (a.subsetName s) = false) :
    t.enter a s = .ok (d.toList.length, t.push a s (a.subsetName s)) := by
  have hnone : t.names.idxOf? (a.subsetName s) = none := by
    rw [List.idxOf?_eq_none_iff, ht.names]
    exact fun hmem => Bool.false_ne_true (hname.symm.trans (Numbering.hasLabel_iff.2 hmem))
  rw [enter, checkedSubsetName_eq hlt, ok_bind, hnone, ht.length_names]
  rfl

theorem enter_eq_error (hlt : ∀ q ∈ s, q < a.states.size) (hb : b ∈ d.toList)
    (hname : a.subsetName b = a.subsetName s) : t.enter a s = .error (a.rejectClash (b, s)) := by
  obtain ⟨k, hk⟩ := List.mem_iff_getElem?.1 hb
  have htaken : t.names[k]? = some (a.subsetName s) := hname ▸ ht.getElem?_names hk
  have hidx : t.names.idxOf? (a.subsetName s) = some k :=
    (idxOf?_eq_some_iff_getElem? (ht.names ▸ d.nodup_labels)).2 htaken
  have howner : t.numbers.find? (fun entry => entry.2 == k) = some (b, k) :=
    ht.numbers ▸ find?_zipIdx_eq_some hk
  rw [enter, checkedSubsetName_eq hlt, ok_bind, hidx]
  simp only [howner, htaken, demand_some, ok_bind, checkedDescription_eq (ht.lt b hb),
    checkedDescription_eq hlt]
  rfl

theorem simulates_numberOf (hlt : ∀ q ∈ s, q < a.states.size) (hne : ¬s.isEmpty)
    (hdone : done ≤ d.toList.length) :
    Simulates a (t.numberOf a s) (d.insert? s) fun (k, t') d' =>
      d.toList <+: d'.toList ∧ d'.toList[k]? = some s ∧ t'.Tracks d' done steps := by
  by_cases hs : s ∈ d.toList
  · obtain ⟨k, hk⟩ := List.mem_iff_getElem?.1 hs
    rw [Numbering.insert?_of_mem hs, numberOf, ht.lookup_eq_some_iff.2 hk]
    exact ⟨_, rfl, List.prefix_rfl, hk, ht⟩
  · have hnone : t.numbers.lookup s = none :=
      Option.eq_none_iff_forall_ne_some.2 fun k hk =>
        hs (List.mem_of_getElem? (ht.lookup_eq_some_iff.1 hk))
    rw [numberOf, hnone]
    cases hname : d.hasLabel (a.subsetName s) with
    | false =>
      have hinsert : (d.insert s).toList = d.toList ++ [s] := by
        rw [Numbering.toList_insert, hname]
        exact if_neg Bool.false_ne_true
      rw [Numbering.insert?_of_not_hasLabel hname]
      refine ⟨_, ht.enter_eq_ok hlt hname, ?_, ?_, ht.push hlt hne hdone hinsert⟩
      · exact hinsert ▸ List.prefix_append _ _
      · rw [hinsert, List.getElem?_concat_length]
    | true =>
      obtain ⟨b, hb, hname⟩ := List.mem_map.1 (Numbering.hasLabel_iff.1 hname)
      have hbs : b ≠ s := fun heq => hs (heq ▸ hb)
      rw [Numbering.insert?_eq_error_iff.2 ⟨rfl, hb, hname, hbs⟩]
      exact ht.enter_eq_error hlt hb hname

theorem snoc_of_isEmpty (hempty : (a.move s i).isEmpty) :
    t.Tracks d done (steps ++ [(s, k, i)]) := by
  have hnone : d.idxOf? (a.move s i) = none :=
    Option.eq_none_iff_forall_ne_some.2 fun k hk =>
      ht.nonempty _ (List.mem_of_getElem? (Numbering.idxOf?_eq_some_iff.1 hk)) hempty
  refine { ht with transitions := ?_, entered := ?_ }
  · rw [ht.transitions, edgesOf, edgesOf, List.filterMap_append]
    simp [hnone]
  · intro u number j hstep
    rcases List.mem_append.1 hstep with hstep | hstep
    · exact ht.entered u number j hstep
    · cases List.mem_singleton.1 hstep
      exact Or.inl hempty

theorem snoc_of_getElem? {target : StateId} (htarget : d.toList[target]? = some (a.move s i)) :
    { t with transitions := t.transitions.add k i target }.Tracks d done
      (steps ++ [(s, k, i)]) := by
  refine { ht with transitions := ?_, entered := ?_ }
  · show t.transitions.add k i target = _
    rw [ht.transitions, edgesOf, edgesOf, List.filterMap_append]
    simp [Numbering.idxOf?_eq_some_iff.2 htarget]
  · intro u number j hstep
    rcases List.mem_append.1 hstep with hstep | hstep
    · exact ht.entered u number j hstep
    · cases List.mem_singleton.1 hstep
      exact Or.inr (List.mem_of_getElem? htarget)

theorem simulates_expandBy (h : a.WellFormed) (hs : d.toList[k]? = some s)
    (hdone : done ≤ d.toList.length) (hi : i < a.alphabet.size) :
    Simulates a (t.expandBy a s k i)
      (if (a.move s i).isEmpty then .ok d else d.insert? (a.move s i)) fun t' d' =>
        d.toList <+: d'.toList ∧ t'.Tracks d' done (steps ++ [(s, k, i)]) := by
  unfold expandBy
  split
  · next hempty => exact ⟨t, rfl, List.prefix_rfl, ht.snoc_of_isEmpty hempty⟩
  · next hne =>
    rw [← bind_pure (d.insert? (a.move s i))]
    refine (ht.simulates_numberOf (fun q hq => h.lt_of_mem_move hq) hne hdone).bind ?_
    rintro ⟨target, t'⟩ d' ⟨hpre, htarget, ht'⟩
    have hk : d'.toList[k]? = some s := by
      obtain ⟨hlt, rfl⟩ := List.getElem?_eq_some_iff.1 hs
      exact List.prefix_iff_getElem?.1 hpre k hlt
    refine ⟨_, ?_, hpre, ht'.snoc_of_getElem? htarget⟩
    simp only [ht'.getElem?_names hk, ht'.getElem?_names htarget, symbolName?_eq hi, demand_some,
      ok_bind]
    rfl

theorem simulates_foldlM (h : a.WellFormed) (hs : d.toList[k]? = some s)
    (hdone : done ≤ d.toList.length) {symbols : List SymbolIndex}
    (hsymbols : ∀ i ∈ symbols, i < a.alphabet.size) :
    Simulates a (symbols.foldlM (expandBy a s k) t)
      (d.insertAll? ((symbols.map (a.move s)).filter (!·.isEmpty))) fun t' d' =>
        d.toList <+: d'.toList ∧
          t'.Tracks d' done (steps ++ symbols.map fun i => (s, k, i)) := by
  induction symbols generalizing t d steps with
  | nil => exact ⟨t, rfl, List.prefix_rfl, by simpa using ht⟩
  | cons i symbols ih =>
    have hstep := ht.simulates_expandBy h hs hdone (hsymbols i List.mem_cons_self)
    have hbind : d.insertAll? (((i :: symbols).map (a.move s)).filter (!·.isEmpty)) =
        (if (a.move s i).isEmpty then .ok d else d.insert? (a.move s i)) >>= fun d' =>
          d'.insertAll? ((symbols.map (a.move s)).filter (!·.isEmpty)) := by
      rw [List.map_cons, List.filter_cons]
      split
      · next hne =>
        rw [if_neg (by simpa using hne), Numbering.insertAll?]
        cases d.insert? (a.move s i) <;> rfl
      · next hempty => rw [if_pos (by simpa using hempty), ok_bind]
    rw [hbind, List.foldlM_cons]
    refine hstep.bind ?_
    rintro t' d' ⟨hpre, ht'⟩
    have hk : d'.toList[k]? = some s := by
      obtain ⟨hlt, rfl⟩ := List.getElem?_eq_some_iff.1 hs
      exact List.prefix_iff_getElem?.1 hpre k hlt
    refine (ih ht' hk (Nat.le_trans hdone hpre.length_le) fun j hj =>
      hsymbols j (List.mem_cons_of_mem i hj)).mono ?_
    rintro t'' d'' ⟨hpre', ht''⟩
    refine ⟨hpre.trans hpre', ?_⟩
    rwa [List.append_assoc, List.singleton_append] at ht''

end Tracks

def allSteps (a : Automaton) (l : List StateSet) : List (StateSet × StateId × SymbolIndex) :=
  l.zipIdx.flatMap fun (s, k) => a.symbols.map fun i => (s, k, i)

theorem allSteps_concat (l : List StateSet) : allSteps a (l ++ [s]) =
    allSteps a l ++ a.symbols.map fun i => (s, l.length, i) := by
  simp [allSteps, List.zipIdx_append]

theorem discover_of_get?_eq_none {next : StateSet → List StateSet} {fuel : Nat}
    (hget : d.get? done = none) : discover next fuel d done = .ok d := by
  cases fuel with
  | zero => rfl
  | succ fuel => rw [discover, hget]

theorem discover_succ {next : StateSet → List StateSet} {fuel : Nat}
    (hget : d.get? done = some s) : discover next (fuel + 1) d done =
      d.insertAll? (next s) >>= fun d => discover next fuel d (done + 1) := by
  simp only [discover, hget]
  cases d.insertAll? (next s) <;> rfl

/-- The search enters the sets that `discover` finds, within as many rounds. -/
theorem Tracks.simulates_expand (h : a.WellFormed) (fuel : Nat)
    (ht : t.Tracks d done (allSteps a (d.toList.take done)))
    (hfuel : Nat.pow 2 a.states.size < fuel + done) :
    Simulates a (t.expand a fuel) (discover (a.subsetSuccessors a.targets) fuel d done)
      fun t' d' => ∃ done', t'.Tracks d' done' (allSteps a d'.toList) := by
  induction fuel generalizing t d done with
  | zero =>
    -- more sets have been expanded than there are
    have hle : d.toList.length ≤ done := by
      have := ht.length_le
      omega
    have hpending : t.pending = [] := ht.pending.trans (List.drop_eq_nil_of_le hle)
    rw [List.take_of_length_le hle] at ht
    refine ⟨t, ?_, done, ht⟩
    unfold expand
    rw [hpending]
  | succ fuel ih =>
    unfold expand
    cases hget : d.toList[done]? with
    | none =>
      have hle := List.getElem?_eq_none_iff.1 hget
      have hpending : t.pending = [] := ht.pending.trans (List.drop_eq_nil_of_le hle)
      rw [List.take_of_length_le hle] at ht
      rw [hpending, discover_of_get?_eq_none (Numbering.getElem?_toList.symm.trans hget)]
      exact ⟨t, rfl, done, ht⟩
    | some s =>
      obtain ⟨hlt, hs⟩ := List.getElem?_eq_some_iff.1 hget
      have hpending : t.pending = s :: d.toList.drop (done + 1) := by
        rw [ht.pending, List.drop_eq_getElem_cons hlt, hs]
      have ht' : { t with pending := d.toList.drop (done + 1) }.Tracks d (done + 1)
          (allSteps a (d.toList.take done)) := { ht with pending := rfl }
      rw [hpending, discover_succ (Numbering.getElem?_toList.symm.trans hget)]
      simp only [ht.lookup_eq_some_iff.2 hget, demand_some, ok_bind]
      refine (ht'.simulates_foldlM h hget hlt fun i hi => List.mem_range.1 hi).bind ?_
      rintro t' d' ⟨hpre, ht'⟩
      refine ih ?_ (by omega)
      have htake : d'.toList.take (done + 1) = d.toList.take done ++ [s] := by
        obtain ⟨l, hl⟩ := hpre
        rw [← hl, List.take_append_of_le_length hlt, List.take_add_one, hget]
        rfl
      rwa [htake, allSteps_concat, List.length_take_of_le (Nat.le_of_lt hlt)]

end SubsetSearch

variable {d : Numbering a.subsetName}

theorem SubsetSearch.tracks_empty : SubsetSearch.Tracks {} (∅ : Numbering a.subsetName) 0 [] where
  numbers := rfl
  names := rfl
  transitions := rfl
  accept := by simp
  pending := rfl
  lt := nofun
  nonempty := nofun
  entered := nofun

/-- What the search has found in the end is the automaton of the sets. -/
theorem SubsetSearch.Tracks.eq_ofSubsets {t : SubsetSearch} {done : Nat}
    (ht : t.Tracks d done (allSteps a d.toList)) :
    { states := .ofList t.names, alphabet := a.alphabet, transitions := t.transitions, start := 0,
      accept := t.accept : Automaton } = a.ofSubsets d := by
  have hstates : OrderedSet.ofList t.names = a.subsetNames d := by
    refine OrderedSet.ext ?_
    rw [OrderedSet.toList_ofList_of_nodup (ht.names ▸ d.nodup_labels), ht.names]
    exact toList_states_ofSubsets.symm
  have htransitions : t.transitions = a.subsetTransitions a.targets d := by
    rw [ht.transitions, subsetTransitions, ← Transitions.foldl_add_rows]
    simp only [edgesOf, allSteps, List.filterMap_flatMap, List.filterMap_map]
    rfl
  have haccept : t.accept = (a.ofSubsets d).accept := StateSet.ext fun q =>
    (ht.accept q).trans mem_accept_ofSubsets.symm
  rw [hstates, htransitions, haccept]
  rfl

/-- Determinizing a well-formed automaton finds all that it looks up. -/
theorem WellFormed.checkedSubsetConstruction_eq (h : a.WellFormed) :
    a.checkedSubsetConstruction = a.subsetConstruction.mapError .rejected := by
  have hlt : ∀ q ∈ StateSet.singleton a.start, q < a.states.size := fun q hq =>
    StateSet.mem_singleton.1 hq ▸ h.start_lt
  have henter := SubsetSearch.tracks_empty.enter_eq_ok hlt Numbering.hasLabel_empty
  have ht : (SubsetSearch.push a {} (.singleton a.start) (a.subsetName _)).Tracks
      (.ofList a.subsetName [.singleton a.start]) 0 [] :=
    SubsetSearch.tracks_empty.push hlt Bool.false_ne_true (Nat.zero_le _)
      Numbering.toList_ofList_singleton
  have hsimulates := ht.simulates_expand h (Nat.pow 2 a.states.size + 1) (Nat.lt_succ_self _)
  rw [checkedSubsetConstruction, henter, ok_bind, subsetConstruction]
  simp only [storedTargets_eq, namedSubsets]
  cases hdiscover : discover (a.subsetSuccessors a.targets) (Nat.pow 2 a.states.size + 1)
      (.ofList a.subsetName [.singleton a.start]) 0 with
  | error clash =>
    rw [hdiscover] at hsimulates
    rw [show SubsetSearch.expand a _ _ = .error (a.rejectClash clash) from hsimulates]
    rfl
  | ok d =>
    rw [hdiscover] at hsimulates
    obtain ⟨t, hexpand, done, ht⟩ := hsimulates
    rw [hexpand, ok_bind]
    exact congrArg Except.ok ht.eq_ofSubsets

end Chomsky.Automaton
