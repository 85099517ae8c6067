import Chomsky.RightLinear.StateNaming
import Chomsky.Proofs.Lookup.Basic
import Mathlib.Data.List.Basic
import Mathlib.Data.List.Induction
import Mathlib.Data.List.Nodup
import Mathlib.Data.List.TakeWhile

/-! # Distinct names for states

Every state gets one name, and no two states get the same one: kept names are distinct, and so are
the words of letters for distinct numbers (`letterName_injective`). Letters are given if the names
of all states end in distinct numbers (`letterNames_eq_ok_iff`); otherwise the first name that does
not is the cause of failure (`letterNames_eq_error_iff`).
-/

namespace Chomsky

variable {name : String} {n m d : Nat} {s stem digits : List Char}

def lettersValue (letters : List Char) : Nat :=
  letters.foldl (fun n c => 26 * n + (c.toNat - 'A'.toNat + 1)) 0

theorem toNat_letter (hd : d < 26) : (letter d).toNat = 'A'.toNat + d := by
  revert d
  decide

theorem lettersValue_letterWord (n : Nat) : lettersValue (letterWord n) = n + 1 := by
  induction n using letterWord.induct with
  | case1 n hn =>
    rw [letterWord, if_pos hn, lettersValue, List.foldl_cons, List.foldl_nil, toNat_letter hn]
    omega
  | case2 n hn ih =>
    have hlast := toNat_letter (Nat.mod_lt n (by decide : 0 < 26))
    rw [lettersValue] at ih
    rw [letterWord, if_neg hn, lettersValue, List.foldl_append, List.foldl_cons, List.foldl_nil,
      ih, hlast]
    omega

theorem letterName_injective (h : letterName n = letterName m) : n = m := by
  have hvalue := congrArg lettersValue (String.ofList_injective h)
  rw [lettersValue_letterWord, lettersValue_letterWord] at hvalue
  exact Nat.succ.inj hvalue

theorem cutDigits_eq_iff : cutDigits s = (stem, digits) ↔
    s = stem ++ digits ∧ (∀ c ∈ digits, c.isDigit) ∧ ∀ c ∈ stem.getLast?, ¬c.isDigit := by
  constructor
  · intro h
    obtain ⟨rfl, rfl⟩ := Prod.mk.inj h
    refine ⟨?_, fun c hc => List.mem_takeWhile_imp (List.mem_reverse.1 hc), fun c hc => ?_⟩
    · rw [← List.reverse_append, List.takeWhile_append_dropWhile, List.reverse_reverse]
    · rw [List.getLast?_reverse, Option.mem_def] at hc
      have hnot := List.head?_dropWhile_not Char.isDigit s.reverse
      rw [hc] at hnot
      exact Bool.eq_false_iff.1 hnot
  · rintro ⟨rfl, hdigits, hstem⟩
    have hall : ∀ c ∈ digits.reverse, c.isDigit := fun c hc => hdigits c (List.mem_reverse.1 hc)
    have hhead : ∀ c ∈ stem.reverse.head?, ¬c.isDigit := by rwa [List.head?_reverse]
    rw [cutDigits, List.reverse_append, List.takeWhile_append_of_pos hall,
      List.dropWhile_append_of_pos hall]
    cases hreverse : stem.reverse with
    | nil =>
      obtain rfl := List.reverse_eq_nil_iff.1 hreverse
      rw [List.dropWhile_nil, List.takeWhile_nil, List.append_nil, List.reverse_reverse,
        List.reverse_nil]
    | cons c rest =>
      have hc : ¬c.isDigit := hhead c (by rw [hreverse]; rfl)
      rw [List.dropWhile_cons_of_neg hc, List.takeWhile_cons_of_neg hc, List.append_nil,
        List.reverse_reverse, ← hreverse, List.reverse_reverse]

/-- A name ends in a number: in a longest run of digits that is not empty and has no sign before
it, of a value that fits into 64 bits. -/
def EndsInNumber (name : String) (n : Nat) : Prop :=
  ∃ stem digits, name.toList = stem ++ digits ∧ digits ≠ [] ∧ (∀ c ∈ digits, c.isDigit) ∧
    (∀ c ∈ stem.getLast?, ¬c.isDigit ∧ c ≠ '-' ∧ c ≠ '+') ∧
      decimalValue digits = n ∧ n < UInt64.size

theorem stateNumber_eq_ok_iff : stateNumber name = .ok n ↔ EndsInNumber name n := by
  obtain ⟨hname, hdigits, hstem⟩ := cutDigits_eq_iff.1 (rfl : cutDigits name.toList = _)
  rw [stateNumber]
  constructor
  · intro h
    dsimp only at h
    split at h
    · cases h
    · next hgood =>
      cases h
      simp only [Bool.or_eq_true, List.isEmpty_iff, beq_iff_eq, decide_eq_true_eq, not_or,
        Nat.not_le] at hgood
      obtain ⟨⟨⟨hne, hminus⟩, hplus⟩, hlt⟩ := hgood
      refine ⟨_, _, hname, hne, hdigits, fun c hc => ⟨hstem c hc, ?_, ?_⟩, rfl, hlt⟩
      · rintro rfl
        exact hminus hc
      · rintro rfl
        exact hplus hc
  · rintro ⟨stem, digits, hname, hne, hdigits, hstem, rfl, hlt⟩
    rw [cutDigits_eq_iff.2 ⟨hname, hdigits, fun c hc => (hstem c hc).1⟩]
    dsimp only
    rw [if_neg]
    simp only [Bool.or_eq_true, List.isEmpty_iff, beq_iff_eq, decide_eq_true_eq, not_or,
      Nat.not_le]
    exact ⟨⟨⟨hne, fun h => (hstem _ h).2.1 rfl⟩, fun h => (hstem _ h).2.2 rfl⟩, hlt⟩

theorem stateNumber_eq_error (h : ∀ n, ¬EndsInNumber name n) :
    stateNumber name = .error (.stateNumber name) := by
  cases hresult : stateNumber name with
  | ok n => exact absurd (stateNumber_eq_ok_iff.1 hresult) (h n)
  | error cause =>
    rw [stateNumber] at hresult
    dsimp only at hresult
    split at hresult
    · exact hresult.symm
    · cases hresult

theorem EndsInNumber.unique (h : EndsInNumber name n) (h' : EndsInNumber name m) : n = m :=
  Except.ok.inj ((stateNumber_eq_ok_iff.2 h).symm.trans (stateNumber_eq_ok_iff.2 h'))

section LetterNames

variable {state owner : String} {named : List (String × String)}
  {states before after names : List String} {ns : List Nat} {cause : LanguageError}

def Numbered (states : List String) (ns : List Nat) : Prop :=
  List.Forall₂ EndsInNumber states ns ∧ ns.Nodup

theorem Numbered.nodup_letterNames (h : Numbered states ns) : (ns.map letterName).Nodup :=
  h.2.map fun _ _ heq => letterName_injective heq

theorem Numbered.exists_getElem? {i : Nat} (h : Numbered states ns) (hi : states[i]? = some state) :
    ∃ n, ns[i]? = some n ∧ EndsInNumber state n := by
  obtain ⟨hlt, rfl⟩ := List.getElem?_eq_some_iff.1 hi
  have hlt' : i < ns.length := h.1.length_eq ▸ hlt
  exact ⟨ns[i], List.getElem?_eq_getElem hlt', h.1.get hlt hlt'⟩

theorem letterNames_cons_of_not (h : ∀ n, ¬EndsInNumber state n) :
    letterNames named (state :: states) = .error (.stateNumber state) := by
  rw [letterNames, stateNumber_eq_error h]
  rfl

theorem letterNames_cons_of_taken (h : EndsInNumber state n)
    (howner : named.lookup (letterName n) = some owner) :
    letterNames named (state :: states) = .error (.nameCollision owner state (letterName n)) := by
  rw [letterNames, stateNumber_eq_ok_iff.2 h, ok_bind]
  dsimp only
  rw [howner]
  rfl

theorem letterNames_cons_of_free (h : EndsInNumber state n)
    (hfree : named.lookup (letterName n) = none) :
    letterNames named (state :: states) =
      (letterNames ((letterName n, state) :: named) states).map (letterName n :: ·) := by
  rw [letterNames, stateNumber_eq_ok_iff.2 h, ok_bind]
  dsimp only
  rw [hfree]
  cases letterNames ((letterName n, state) :: named) states <;> rfl

/-- Numbered states under their letters, the last one first. -/
def owners (states : List String) (ns : List Nat) : List (String × String) :=
  (List.zipWith (fun state n => (letterName n, state)) states ns).reverse

theorem owners_cons :
    owners (state :: states) (n :: ns) = owners states ns ++ [(letterName n, state)] := by
  rw [owners, List.zipWith_cons_cons, List.reverse_cons]
  rfl

theorem map_fst_owners (h : List.Forall₂ EndsInNumber states ns) :
    (owners states ns).map Prod.fst = (ns.map letterName).reverse := by
  induction h with
  | nil => rfl
  | @cons _ n _ ns _ _ ih =>
    rw [owners_cons, List.map_append, ih]
    exact List.reverse_cons.symm

theorem mem_owners (h : List.Forall₂ EndsInNumber states ns) (howner : owner ∈ states)
    (hn : EndsInNumber owner n) : (letterName n, owner) ∈ owners states ns := by
  induction h with
  | nil => cases howner
  | cons hstate _ ih =>
    rw [owners_cons, List.mem_append, List.mem_singleton]
    rcases List.mem_cons.1 howner with rfl | howner
    · exact Or.inr (by rw [hstate.unique hn])
    · exact Or.inl (ih howner)

theorem lookup_owners (h : Numbered states ns) (howner : owner ∈ states)
    (hn : EndsInNumber owner n) : (owners states ns).lookup (letterName n) = some owner := by
  have hkeys : ((owners states ns).map Prod.fst).Nodup := by
    rw [map_fst_owners h.1]
    exact List.nodup_reverse.2 h.nodup_letterNames
  refine (lookup_eq_some_iff_mem fun v v' hv hv' => ?_).2 (mem_owners h.1 howner hn)
  exact (Prod.mk.inj (List.inj_on_of_nodup_map hkeys hv hv' rfl)).2

/-- The states in front get their letters, under which they are found afterwards. -/
theorem letterNames_append (h : Numbered before ns)
    (hfree : ∀ n ∈ ns, named.lookup (letterName n) = none) :
    letterNames named (before ++ states) =
      (letterNames (owners before ns ++ named) states).map (ns.map letterName ++ ·) := by
  obtain ⟨hnumbers, hnodup⟩ := h
  induction hnumbers generalizing named with
  | nil =>
    change letterNames named states = (letterNames named states).map ([] ++ ·)
    cases letterNames named states <;> rfl
  | @cons state n before ns hstate hrest ih =>
    obtain ⟨hnot, hnodup⟩ := List.nodup_cons.1 hnodup
    obtain ⟨hn, hfree⟩ := List.forall_mem_cons.1 hfree
    have hfree' : ∀ m ∈ ns, ((letterName n, state) :: named).lookup (letterName m) = none := by
      intro m hm
      have hne : letterName m ≠ letterName n := fun heq => hnot (letterName_injective heq ▸ hm)
      rw [List.lookup_cons, beq_false_of_ne hne]
      exact hfree m hm
    rw [List.cons_append, letterNames_cons_of_free hstate hn, ih hfree' hnodup, List.map_cons,
      owners_cons, List.append_assoc, List.singleton_append]
    cases letterNames (owners before ns ++ (letterName n, state) :: named) states <;> rfl

theorem letterNames_of_numbered (h : Numbered states ns) :
    letterNames [] states = .ok (ns.map letterName) := by
  have happend : letterNames [] (states ++ []) = _ :=
    letterNames_append h fun _ _ => List.lookup_nil
  rwa [List.append_nil, letterNames, Except.map, List.append_nil] at happend

theorem letterNames_of_not (h : Numbered before ns) (hstate : ∀ n, ¬EndsInNumber state n) :
    letterNames [] (before ++ state :: after) = .error (.stateNumber state) := by
  rw [letterNames_append h fun _ _ => List.lookup_nil, letterNames_cons_of_not hstate]
  rfl

theorem letterNames_of_taken (h : Numbered before ns) (howner : owner ∈ before)
    (hn : EndsInNumber owner n) (hstate : EndsInNumber state n) :
    letterNames [] (before ++ state :: after) =
      .error (.nameCollision owner state (letterName n)) := by
  have hlookup := lookup_owners h howner hn
  rw [← List.append_nil (owners before ns)] at hlookup
  rw [letterNames_append h fun _ _ => List.lookup_nil, letterNames_cons_of_taken hstate hlookup]
  rfl

/-- All names end in distinct numbers, or there is a first name that does not. -/
theorem numbered_or_first_not (states : List String) : (∃ ns, Numbered states ns) ∨
    ∃ before state after ns, states = before ++ state :: after ∧ Numbered before ns ∧
      ((∀ n, ¬EndsInNumber state n) ∨
        ∃ owner n, owner ∈ before ∧ EndsInNumber owner n ∧ EndsInNumber state n) := by
  induction states using List.reverseRecOn with
  | nil => exact Or.inl ⟨[], .nil, List.nodup_nil⟩
  | append_singleton states state ih =>
    rcases ih with ⟨ns, hnumbers, hnodup⟩ | ⟨before, first, after, ns, rfl, hbefore, hfirst⟩
    · by_cases hstate : ∃ n, EndsInNumber state n
      · obtain ⟨n, hn⟩ := hstate
        by_cases hmem : n ∈ ns
        · obtain ⟨owner, howner, hn'⟩ := (exists_of_forall₂ hnumbers).2 n hmem
          exact Or.inr ⟨states, state, [], ns, rfl, ⟨hnumbers, hnodup⟩,
            Or.inr ⟨owner, n, howner, hn', hn⟩⟩
        · refine Or.inl ⟨ns ++ [n], List.rel_append hnumbers (.cons hn .nil), ?_⟩
          exact List.nodup_append.2 ⟨hnodup, List.nodup_singleton n, by
            rintro m hm _ hm' rfl
            exact hmem (List.mem_singleton.1 hm' ▸ hm)⟩
      · exact Or.inr ⟨states, state, [], ns, rfl, ⟨hnumbers, hnodup⟩, Or.inl (not_exists.1 hstate)⟩
    · exact Or.inr ⟨before, first, after ++ [state], ns, by simp, hbefore, hfirst⟩

/-- Letters are found for all states if their names end in distinct numbers. -/
theorem letterNames_eq_ok_iff :
    letterNames [] states = .ok names ↔ ∃ ns, Numbered states ns ∧ names = ns.map letterName := by
  constructor
  · intro h
    rcases numbered_or_first_not states with
      ⟨ns, hns⟩ | ⟨before, state, after, ns, rfl, hns, hnot | ⟨owner, n, howner, hn, hstate⟩⟩
    · exact ⟨ns, hns, Except.ok.inj (h.symm.trans (letterNames_of_numbered hns))⟩
    · rw [letterNames_of_not hns hnot] at h
      cases h
    · rw [letterNames_of_taken hns howner hn hstate] at h
      cases h
  · rintro ⟨ns, hns, rfl⟩
    exact letterNames_of_numbered hns

/-- The cause of failure is the first state the name of which does not end in a number, or in that
of an earlier one. -/
theorem letterNames_eq_error_iff : letterNames [] states = .error cause ↔
    ∃ before state after, states = before ++ state :: after ∧ (∃ ns, Numbered before ns) ∧
      ((∀ n, ¬EndsInNumber state n) ∧ cause = .stateNumber state ∨
        ∃ owner n, owner ∈ before ∧ EndsInNumber owner n ∧ EndsInNumber state n ∧
          cause = .nameCollision owner state (letterName n)) := by
  constructor
  · intro h
    rcases numbered_or_first_not states with
      ⟨ns, hns⟩ | ⟨before, state, after, ns, rfl, hns, hnot | ⟨owner, n, howner, hn, hstate⟩⟩
    · rw [letterNames_of_numbered hns] at h
      cases h
    · rw [letterNames_of_not hns hnot] at h
      exact ⟨before, state, after, rfl, ⟨ns, hns⟩, Or.inl ⟨hnot, (Except.error.inj h).symm⟩⟩
    · rw [letterNames_of_taken hns howner hn hstate] at h
      exact ⟨before, state, after, rfl, ⟨ns, hns⟩,
        Or.inr ⟨owner, n, howner, hn, hstate, (Except.error.inj h).symm⟩⟩
  · rintro ⟨before, state, after, rfl, ⟨ns, hns⟩, ⟨hnot, rfl⟩ | ⟨owner, n, howner, hn, hstate, rfl⟩⟩
    · exact letterNames_of_not hns hnot
    · exact letterNames_of_taken hns howner hn hstate

end LetterNames

namespace Automaton

variable {a : Automaton} {naming : StateNaming} {names : List String}

theorem length_nonterminalNames (h : a.nonterminalNames naming = .ok names) :
    names.length = a.states.size := by
  rw [← OrderedSet.length_toList]
  cases naming with
  | preserve => cases h; rfl
  | letters =>
    obtain ⟨ns, hns, rfl⟩ := letterNames_eq_ok_iff.1 h
    rw [List.length_map, hns.1.length_eq]

theorem nodup_nonterminalNames (h : a.nonterminalNames naming = .ok names) : names.Nodup := by
  cases naming with
  | preserve => cases h; exact a.states.nodup
  | letters =>
    obtain ⟨ns, hns, rfl⟩ := letterNames_eq_ok_iff.1 h
    exact hns.nodup_letterNames

end Automaton
end Chomsky
