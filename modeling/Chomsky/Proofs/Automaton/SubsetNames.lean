import Chomsky.Proofs.Automaton.Language
import Chomsky.Proofs.Symbol.Fresh
import Mathlib

/-! # Names of sets of states

The subset construction names a set by the names of its members run together, so that two sets may
get one name. It fails if and only if this happens to sets to which words lead, and the error lists
the members of two such sets (`subsetConstruction_fails_iff`). If no name is a prefix or no name is
a suffix of another one, the names are a uniquely decodable code, and nothing fails
(`exists_determinizations`).
-/

namespace Chomsky

open InformationTheory (UniquelyDecodable)

section Codes

variable {α : Type u} {code : Set (List α)}

/-- Words none of which is a prefix of another one can be told apart in a concatenation. -/
theorem uniquelyDecodable_of_prefixFree (hnil : [] ∉ code)
    (hfree : ∀ x ∈ code, ∀ y ∈ code, x <+: y → x = y) : UniquelyDecodable code := by
  have hne : ∀ x ∈ code, ∀ l : List (List α), (x :: l).flatten ≠ [] := by
    intro x hx l h
    exact hnil ((List.append_eq_nil_iff.1 h).1 ▸ hx)
  intro l m hl hm heq
  induction l generalizing m with
  | nil =>
    cases m with
    | nil => rfl
    | cons y m => exact absurd heq.symm (hne y (hm y List.mem_cons_self) m)
  | cons x l ih =>
    cases m with
    | nil => exact absurd heq (hne x (hl x List.mem_cons_self) l)
    | cons y m =>
      obtain ⟨hx, hl'⟩ := List.forall_mem_cons.1 hl
      obtain ⟨hy, hm'⟩ := List.forall_mem_cons.1 hm
      rw [List.flatten_cons, List.flatten_cons] at heq
      have hy' : y <+: x ++ l.flatten := heq ▸ List.prefix_append y m.flatten
      have hxy : x = y := by
        rcases List.prefix_or_prefix_of_prefix (List.prefix_append x l.flatten) hy' with h | h
        · exact hfree x hx y hy h
        · exact (hfree y hy x hx h).symm
      subst hxy
      rw [ih m hl' hm' (List.append_cancel_left heq)]

/-- Words none of which is a suffix of another one can be told apart in a concatenation. -/
theorem uniquelyDecodable_of_suffixFree (hnil : [] ∉ code)
    (hfree : ∀ x ∈ code, ∀ y ∈ code, x <:+ y → x = y) : UniquelyDecodable code := by
  -- read backwards, the words are those of a code without prefixes
  have hreverse : UniquelyDecodable {x : List α | x.reverse ∈ code} := by
    refine uniquelyDecodable_of_prefixFree hnil fun x hx y hy h => ?_
    have h : x.reverse.reverse <+: y.reverse.reverse := by simpa using h
    exact List.reverse_injective (hfree _ hx _ hy (List.reverse_prefix.1 h))
  have hmem : ∀ l : List (List α), (∀ x ∈ l, x ∈ code) →
      ∀ x ∈ (l.map List.reverse).reverse, x ∈ {x : List α | x.reverse ∈ code} := by
    intro l hl x hx
    obtain ⟨y, hy, rfl⟩ := List.mem_map.1 (List.mem_reverse.1 hx)
    show y.reverse.reverse ∈ code
    rw [List.reverse_reverse]
    exact hl y hy
  intro l m hl hm heq
  have h := hreverse _ _ (hmem l hl) (hmem m hm)
    (by rw [← List.reverse_flatten, ← List.reverse_flatten, heq])
  exact List.map_injective_iff.2 List.reverse_injective (List.reverse_injective h)

end Codes

section Clashes

variable {α : Type u} {κ : Type v} {label : α → κ} {a b : α}

theorem FirstClash.unique {a' b' : α} {l : List α} (h : FirstClash label l b a)
    (h' : FirstClash label l b' a') : b = b' ∧ a = a' := by
  obtain ⟨l₁, l₂, rfl, hnodup, hb, hlabel, -⟩ := h
  obtain ⟨l₁', l₂', heq, hnodup', hb', hlabel', -⟩ := h'
  obtain ⟨rfl, rfl⟩ : l₁ = l₁' ∧ a = a' := by
    rcases List.append_eq_append_iff.1 heq with ⟨m, rfl, hrest⟩ | ⟨m, rfl, hrest⟩
    · cases m with
      | nil => exact ⟨(List.append_nil _).symm, (List.cons.inj hrest).1⟩
      | cons c m =>
        obtain ⟨rfl, -⟩ := List.cons.inj hrest
        exact absurd hlabel (label_ne_of_nodup hnodup' hb)
    · cases m with
      | nil => exact ⟨List.append_nil _, (List.cons.inj hrest).1.symm⟩
      | cons c m =>
        obtain ⟨rfl, -⟩ := List.cons.inj hrest
        exact absurd hlabel' (label_ne_of_nodup hnodup hb')
  exact ⟨List.inj_on_of_nodup_map hnodup hb hb' (hlabel.trans hlabel'.symm), rfl⟩

end Clashes

namespace Automaton

variable {a : Automaton} {s t : StateSet} {names : List String} {cause : LanguageError}

/-- The set is not empty, and a word leads to its members and to no other state. -/
def Reaches (a : Automaton) (s : StateSet) : Prop :=
  (∃ q, q ∈ s) ∧ ∃ w, ∀ q, q ∈ s ↔ a.Run a.start w q

/-- The names of the members, in order. -/
structure SortedNames (a : Automaton) (s : StateSet) (names : List String) : Prop where
  perm : names.Perm (s.toList.map a.stateName)
  sorted : names.Pairwise (· ≤ ·)

/-- A text lists a set: the names of its members in the order of their numbers, separated by a comma
and a space, between braces. -/
def Lists (a : Automaton) (s : StateSet) (text : String) : Prop :=
  ∃ members names, members.Pairwise (· < ·) ∧ (∀ q, q ∈ members ↔ q ∈ s) ∧
    List.Forall₂ (fun q name => a.stateName? q = some name) members names ∧
    text = "\x7b" ++ ", ".intercalate names ++ "\x7d"

/-- Two different sets to which words lead have one name. -/
structure Clash (a : Automaton) (s t : StateSet) : Prop where
  first : a.Reaches s
  second : a.Reaches t
  ne : s ≠ t
  name_eq : a.subsetName s = a.subsetName t

/-- The name of a set is the concatenation of the names of its members in order. -/
theorem exists_sortedNames (a : Automaton) (s : StateSet) :
    ∃ names, a.SortedNames s names ∧ a.subsetName s = String.join names := by
  have hsorted := List.pairwise_mergeSort' (· ≤ ·) (s.toList.map a.stateName)
  exact ⟨_, ⟨List.mergeSort_perm _ _, hsorted⟩, rfl⟩

theorem nodup_subsetNames {sets : Numbering a.subsetName}
    (h : a.namedSubsets a.targets = .ok sets) : (a.subsets.map a.subsetName).Nodup := by
  rw [← toList_of_namedSubsets h]
  exact sets.nodup_labels

/-- The error is that of the first set whose name is taken. -/
theorem subsetConstruction_eq_error_iff : a.subsetConstruction = .error cause ↔
    ∃ s t, FirstClash a.subsetName a.subsets s t ∧
      cause = .nameCollision (a.describe s) (a.describe t) (a.subsetName t) := by
  simp only [subsetConstruction, storedTargets_eq]
  cases hnamed : a.namedSubsets a.targets with
  | error clash =>
    obtain ⟨s, t⟩ := clash
    have hclash := firstClash_of_namedSubsets hnamed
    constructor
    · intro h
      exact ⟨s, t, hclash, (Except.error.inj h).symm⟩
    · rintro ⟨s', t', hclash', rfl⟩
      obtain ⟨rfl, rfl⟩ := hclash.unique hclash'
      rfl
  | ok sets =>
    constructor
    · intro h
      cases h
    · rintro ⟨s, t, hclash, -⟩
      exact absurd (nodup_subsetNames hnamed) hclash.not_nodup

namespace WellFormed

variable (h : a.WellFormed)
include h

theorem reaches_iff : a.Reaches s ↔ s ∈ a.subsets := by
  rw [h.mem_subsets_iff, Reaches]
  simp only [activeAfter_eq_iff]

theorem lt_of_reaches (hs : a.Reaches s) : ∀ q ∈ s, q < a.states.size := by
  obtain ⟨-, w, hw⟩ := hs
  exact fun q hq => h.lt_of_run ((hw q).1 hq) h.start_lt

theorem lists_describe (hs : a.Reaches s) : a.Lists s (a.describe s) := by
  refine ⟨s.toList, s.toList.map a.stateName, s.ascending, fun q => Iff.rfl, ?_, rfl⟩
  rw [List.forall₂_map_right_iff, List.forall₂_same]
  intro q hq
  exact stateName?_eq (h.lt_of_reaches hs q hq)

/-- The cause of failure is a clash, of the first set whose name is taken with the one that has
taken it. -/
theorem exists_clash_of_subsetConstruction (herror : a.subsetConstruction = .error cause) :
    ∃ s t x y, a.Clash s t ∧ a.Lists s x ∧ a.Lists t y ∧
      cause = .nameCollision x y (a.subsetName t) := by
  obtain ⟨s, t, ⟨found, rest, hsubsets, -, hfound, hname, hne⟩, rfl⟩ :=
    subsetConstruction_eq_error_iff.1 herror
  have hs : a.Reaches s := h.reaches_iff.2 (hsubsets ▸ List.mem_append_left _ hfound)
  have ht : a.Reaches t := h.reaches_iff.2 (hsubsets ▸ List.mem_append_right _ List.mem_cons_self)
  exact ⟨s, t, _, _, ⟨hs, ht, hne, hname⟩, h.lists_describe hs, h.lists_describe ht, rfl⟩

theorem exists_error_of_clash (hclash : a.Clash s t) :
    ∃ cause, a.subsetConstruction = .error cause := by
  cases hsub : a.subsetConstruction with
  | error cause => exact ⟨cause, rfl⟩
  | ok d =>
    obtain ⟨sets, hnamed, -⟩ := subsetConstruction_eq_ok hsub
    exact absurd (List.inj_on_of_nodup_map (nodup_subsetNames hnamed)
      (h.reaches_iff.1 hclash.first) (h.reaches_iff.1 hclash.second) hclash.name_eq) hclash.ne

end WellFormed

/-- The subset construction fails if and only if words lead to two different sets of states with the
same name, which is the names of the members in order, run together. The error lists the members of
two such sets, and says what their name is. -/
theorem subsetConstruction_fails_iff (ha : a.Obtainable) :
    ((∃ cause, a.subsetConstruction = .error cause) ↔ ∃ s t, a.Clash s t) ∧
    (∀ cause, a.subsetConstruction = .error cause →
      ∃ s t x y, a.Clash s t ∧ a.Lists s x ∧ a.Lists t y ∧
        cause = .nameCollision x y (a.subsetName t)) ∧
    ∀ s, ∃ names, a.SortedNames s names ∧ a.subsetName s = String.join names := by
  have hwf := ha.wellFormed
  refine ⟨⟨?_, ?_⟩, fun cause => hwf.exists_clash_of_subsetConstruction, exists_sortedNames a⟩
  · rintro ⟨cause, hcause⟩
    obtain ⟨s, t, -, -, hclash, -⟩ := hwf.exists_clash_of_subsetConstruction hcause
    exact ⟨s, t, hclash⟩
  · rintro ⟨s, t, hclash⟩
    exact hwf.exists_error_of_clash hclash

/-- Two states together have the name of a third one. -/
def runsTogether : AutomatonDefinition where
  transitions := [("s", "x", "a"), ("s", "x", "b"), ("s", "y", "ab")]
  start := some "s"
  accept := ["a"]

theorem subsets_runsTogether :
    (runsTogether.build.map fun a => a.subsets.map fun s => (a.subsetName s, a.describe s)) =
      .ok [("s", "\x7bs\x7d"), ("ab", "\x7ba, b\x7d"), ("ab", "\x7bab\x7d")] := by
  cbv

theorem subsetConstruction_runsTogether (ha : runsTogether.build = .ok a) :
    a.subsetConstruction = .error (.nameCollision "\x7ba, b\x7d" "\x7bab\x7d" "ab") := by
  have hsubsets := subsets_runsTogether
  rw [ha] at hsubsets
  obtain ⟨r, l, hl, hr, hrest⟩ := List.map_eq_cons_iff.1 (Except.ok.inj hsubsets)
  obtain ⟨s, l, rfl, hs, hrest⟩ := List.map_eq_cons_iff.1 hrest
  obtain ⟨t, l, rfl, ht, -⟩ := List.map_eq_cons_iff.1 hrest
  obtain ⟨hr, -⟩ := Prod.mk.inj hr
  obtain ⟨hs, hs'⟩ := Prod.mk.inj hs
  obtain ⟨ht, ht'⟩ := Prod.mk.inj ht
  refine subsetConstruction_eq_error_iff.2 ⟨s, t, ⟨[r, s], l, hl, ?_, ?_, ?_, ?_⟩, ?_⟩
  · simp [hr, hs]
  · simp
  · rw [hs, ht]
  · rintro rfl
    exact absurd (hs'.symm.trans ht') (by decide)
  · rw [hs', ht', ht]

theorem subsetConstruction_fails_iff_runsTogether : ∃ a, runsTogether.build = .ok a ∧
    a.subsetConstruction = .error (.nameCollision "\x7ba, b\x7d" "\x7bab\x7d" "ab") ∧
    ∃ s t, a.Clash s t ∧ a.Lists s "\x7ba, b\x7d" ∧ a.Lists t "\x7bab\x7d" ∧
      a.subsetName s = "ab" ∧ a.subsetName t = "ab" := by
  obtain ⟨a, ha, -⟩ := map_eq_ok_iff.1 subsets_runsTogether
  have herror := subsetConstruction_runsTogether ha
  obtain ⟨-, hcause, -⟩ := subsetConstruction_fails_iff (.build ha)
  obtain ⟨s, t, x, y, hclash, hx, hy, heq⟩ := hcause _ herror
  obtain ⟨rfl, rfl, hname⟩ := LanguageError.nameCollision.inj heq
  exact ⟨a, ha, herror, s, t, hclash, hx, hy, hclash.name_eq.trans hname.symm, hname.symm⟩

def PrefixFree (a : Automaton) : Prop :=
  ∀ x ∈ a.states.toList, ∀ y ∈ a.states.toList, x.toList <+: y.toList → x = y

def SuffixFree (a : Automaton) : Prop :=
  ∀ x ∈ a.states.toList, ∀ y ∈ a.states.toList, x.toList <:+ y.toList → x = y

/-- The names of the states, as words. -/
def nameCode (a : Automaton) : Set (List Char) := {x | String.ofList x ∈ a.states.toList}

theorem uniquelyDecodable_nameCode (hnil : "" ∉ a.states.toList)
    (h : a.PrefixFree ∨ a.SuffixFree) : UniquelyDecodable a.nameCode := by
  have hne : [] ∉ a.nameCode := hnil
  have hlist : ∀ {x : List Char}, (String.ofList x).toList = x := String.toList_ofList
  rcases h with h | h
  · refine uniquelyDecodable_of_prefixFree hne fun x hx y hy hxy => ?_
    exact String.ofList_injective (h _ hx _ hy (by rwa [hlist, hlist]))
  · refine uniquelyDecodable_of_suffixFree hne fun x hx y hy hxy => ?_
    exact String.ofList_injective (h _ hx _ hy (by rwa [hlist, hlist]))

theorem stateName_mem {q : StateId} (hq : q < a.states.size) : a.stateName q ∈ a.states.toList :=
  List.mem_of_getElem? (OrderedSet.getElem?_toList.trans (stateName?_eq hq))

theorem SortedNames.mem_iff (h : a.SortedNames s names) (hs : ∀ q ∈ s, q < a.states.size)
    {q : StateId} (hq : q < a.states.size) : a.stateName q ∈ names ↔ q ∈ s := by
  rw [h.perm.mem_iff, List.mem_map]
  constructor
  · rintro ⟨p, hp, hname⟩
    exact stateName_injective (hs p hp) hq hname ▸ hp
  · exact fun hq => ⟨q, hq, rfl⟩

/-- If the names can be told apart in a concatenation, different sets have different names. -/
theorem eq_of_subsetName_eq (hcode : UniquelyDecodable a.nameCode)
    (hs : ∀ q ∈ s, q < a.states.size) (ht : ∀ q ∈ t, q < a.states.size)
    (hname : a.subsetName s = a.subsetName t) : s = t := by
  obtain ⟨l, hl, hjoin⟩ := exists_sortedNames a s
  obtain ⟨m, hm, hjoin'⟩ := exists_sortedNames a t
  have hwords : ∀ {s : StateSet} {names : List String}, a.SortedNames s names →
      (∀ q ∈ s, q < a.states.size) → ∀ x ∈ names.map String.toList, x ∈ a.nameCode := by
    intro s names h hs x hx
    obtain ⟨y, hy, rfl⟩ := List.mem_map.1 hx
    obtain ⟨q, hq, rfl⟩ := List.mem_map.1 (h.perm.mem_iff.1 hy)
    show String.ofList (a.stateName q).toList ∈ a.states.toList
    rw [String.ofList_toList]
    exact stateName_mem (hs q hq)
  have hflatten : (l.map String.toList).flatten = (m.map String.toList).flatten := by
    rw [← List.flatMap_def, ← List.flatMap_def, ← String.toList_join, ← String.toList_join,
      ← hjoin, ← hjoin', hname]
  have hlm : l = m := List.map_injective_iff.2 (fun _ _ => String.toList_injective)
    (hcode _ _ (hwords hl hs) (hwords hm ht) hflatten)
  subst hlm
  ext q
  exact ⟨fun hq => (hm.mem_iff ht (hs q hq)).1 ((hl.mem_iff hs (hs q hq)).2 hq),
    fun hq => (hl.mem_iff hs (ht q hq)).1 ((hm.mem_iff ht (ht q hq)).2 hq)⟩

theorem eq_empty_of_mem (hnil : "" ∈ a.states.toList) (h : a.PrefixFree ∨ a.SuffixFree) :
    ∀ x ∈ a.states.toList, x = "" := by
  intro x hx
  rcases h with h | h
  · exact (h "" hnil x hx (List.nil_prefix)).symm
  · exact (h "" hnil x hx (List.nil_suffix)).symm

theorem WellFormed.not_clash (h : a.WellFormed) (hfree : a.PrefixFree ∨ a.SuffixFree) :
    ¬a.Clash s t := by
  rintro ⟨hs, ht, hne, hname⟩
  have hs' := h.lt_of_reaches hs
  have ht' := h.lt_of_reaches ht
  by_cases hnil : "" ∈ a.states.toList
  · have hone : ∀ {p q}, p < a.states.size → q < a.states.size → p = q := fun hp hq =>
      stateName_injective hp hq <| (eq_empty_of_mem hnil hfree _ (stateName_mem hp)).trans
        (eq_empty_of_mem hnil hfree _ (stateName_mem hq)).symm
    obtain ⟨⟨p, hp⟩, -⟩ := hs
    obtain ⟨⟨q, hq⟩, -⟩ := ht
    refine hne (StateSet.ext fun r => ⟨fun hr => ?_, fun hr => ?_⟩)
    · exact hone (ht' q hq) (hs' r hr) ▸ hq
    · exact hone (hs' p hp) (ht' r hr) ▸ hp
  · exact hne (eq_of_subsetName_eq (uniquelyDecodable_nameCode hnil hfree) hs' ht' hname)

theorem suffixFree_of_numbered (h : ∀ x ∈ a.states.toList, ∃ n, x = numbered "q" n) :
    a.SuffixFree := by
  intro x hx y hy hsuffix
  obtain ⟨m, rfl⟩ := h x hx
  obtain ⟨n, rfl⟩ := h y hy
  rw [SymbolTable.toList_numbered, SymbolTable.toList_numbered] at hsuffix
  rcases List.suffix_cons_iff.1 hsuffix with heq | hsuffix
  · rw [← String.toList_inj, SymbolTable.toList_numbered, SymbolTable.toList_numbered]
    exact heq
  · have hdigit := SymbolTable.isDigit_of_mem_toDigits (hsuffix.subset List.mem_cons_self)
    exact absurd hdigit (by decide)

/-- If no name of a state is a prefix of another one, or none is a suffix of another one, as with
names that are a `q` and a number, the automaton can be determinized and minimized. -/
theorem exists_determinizations (ha : a.Obtainable) (h : a.PrefixFree ∨ a.SuffixFree ∨
    ∀ x ∈ a.states.toList, ∃ n, x = numbered "q" n) :
    (∃ d, a.subsetConstruction = .ok d) ∧ (∃ d, a.toDeterministic = .ok d) ∧
      ∃ m, a.minimize = .ok m := by
  have hwf := ha.wellFormed
  have hfree : a.PrefixFree ∨ a.SuffixFree :=
    h.imp_right fun h => h.elim id suffixFree_of_numbered
  have hsubsets : ∃ d, a.subsetConstruction = .ok d := by
    cases hsub : a.subsetConstruction with
    | ok d => exact ⟨d, rfl⟩
    | error cause =>
      obtain ⟨s, t, -, -, hclash, -⟩ := hwf.exists_clash_of_subsetConstruction hsub
      exact absurd hclash (hwf.not_clash hfree)
  have hdet : ∃ d, a.toDeterministic = .ok d := by
    unfold toDeterministic
    split
    · exact ⟨a, rfl⟩
    · exact hsubsets
  obtain ⟨d, hd⟩ := hdet
  exact ⟨hsubsets, ⟨d, hd⟩, d.merged, map_eq_ok_iff.2 ⟨d, hd, rfl⟩⟩

/-- Names of which one is a prefix of another one, and none a suffix. -/
def tens : AutomatonDefinition where
  transitions := [("q1", "a", "q1"), ("q1", "a", "q10"), ("q1", "a", "q2"), ("q10", "a", "q2")]
  start := some "q1"
  accept := ["q2"]

theorem states_tens : (tens.build.map fun a => a.states.toList) = .ok ["q1", "q2", "q10"] := by
  cbv

theorem exists_determinizations_tens : ∃ a, tens.build = .ok a ∧ a.SuffixFree ∧
    (∃ d, a.subsetConstruction = .ok d) ∧ (∃ d, a.toDeterministic = .ok d) ∧
      ∃ m, a.minimize = .ok m := by
  obtain ⟨a, ha, hstates⟩ := map_eq_ok_iff.1 states_tens
  have hfree : a.SuffixFree := by
    unfold SuffixFree
    rw [hstates]
    decide
  exact ⟨a, ha, hfree, exists_determinizations (.build ha) (.inr (.inl hfree))⟩

end Automaton
end Chomsky
