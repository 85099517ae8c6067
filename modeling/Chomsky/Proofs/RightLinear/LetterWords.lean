import Chomsky.Proofs.RightLinear.StateNaming
import Mathlib.Data.List.Shortlex
import Mathlib.Data.Set.Function

/-! # Words of letters as numbers

Letters are digits from one to twenty-six, so every word of letters is the name of one number
(`letterWord_lettersValue`). Shorter words come first and words of one length in alphabetical order,
as their numbers do (`shortlex_letterWord_iff`). Numbers of 64 bits are spelled from the last letter
to the first; each turn leaves a smaller number without going below zero
(`Spelling.Reaches.exists_turn`), until the first letter is written.
-/

namespace Chomsky

variable {m n d : Nat} {c : Char} {word : List Char}

def IsLetterWord (word : List Char) : Prop :=
  word ≠ [] ∧ ∀ c ∈ word, 'A' ≤ c ∧ c ≤ 'Z'

theorem letterWord_of_lt (h : n < 26) : letterWord n = [letter n] := by
  rw [letterWord, if_pos h]

theorem letterWord_of_le (h : 26 ≤ n) :
    letterWord n = letterWord (n / 26 - 1) ++ [letter (n % 26)] := by
  rw [letterWord, if_neg (Nat.not_lt.2 h)]

theorem letter_bounds (hd : d < 26) : 'A' ≤ letter d ∧ letter d ≤ 'Z' := by
  revert d
  decide

theorem exists_letter (h : 'A' ≤ c ∧ c ≤ 'Z') : ∃ d < 26, letter d = c := by
  have hA : 65 ≤ c.toNat := h.1
  have hZ : c.toNat ≤ 90 := h.2
  refine ⟨c.toNat - 65, by omega, ?_⟩
  have hc : 'A'.toNat + (c.toNat - 65) = c.toNat := Nat.add_sub_cancel' hA
  rw [letter, hc, Char.ofNat_toNat]

theorem letterWord_ne_nil (n : Nat) : letterWord n ≠ [] := by
  rcases Nat.lt_or_ge n 26 with h | h
  · rw [letterWord_of_lt h]
    exact List.cons_ne_nil _ _
  · rw [letterWord_of_le h]
    exact List.append_ne_nil_of_right_ne_nil _ (List.cons_ne_nil _ _)

theorem isLetterWord_letterWord (n : Nat) : IsLetterWord (letterWord n) := by
  refine ⟨letterWord_ne_nil n, ?_⟩
  induction n using letterWord.induct with
  | case1 n hn =>
    rw [letterWord_of_lt hn]
    exact List.forall_mem_singleton.2 (letter_bounds hn)
  | case2 n hn ih =>
    rw [letterWord_of_le (Nat.not_lt.1 hn), List.forall_mem_append]
    exact ⟨ih, List.forall_mem_singleton.2 (letter_bounds (Nat.mod_lt n (by decide)))⟩

theorem lettersValue_append_letter (word : List Char) (hd : d < 26) :
    lettersValue (word ++ [letter d]) = 26 * lettersValue word + (d + 1) := by
  rw [lettersValue, List.foldl_append, List.foldl_cons, List.foldl_nil, toNat_letter hd,
    Nat.add_sub_cancel_left]
  rfl

theorem letterWord_lettersValue (h : IsLetterWord word) :
    letterWord (lettersValue word - 1) = word := by
  obtain ⟨hne, hletters⟩ := h
  induction word using List.reverseRecOn with
  | nil => exact absurd rfl hne
  | append_singleton word c ih =>
    obtain ⟨hword, hc⟩ := List.forall_mem_append.1 hletters
    obtain ⟨d, hd, rfl⟩ := exists_letter (hc c (List.mem_singleton_self c))
    rw [lettersValue_append_letter word hd, ← Nat.add_assoc, Nat.add_sub_cancel]
    by_cases hnil : word = []
    · subst hnil
      rw [show lettersValue [] = 0 from rfl, Nat.mul_zero, Nat.zero_add, letterWord_of_lt hd]
      rfl
    · have hword := ih hnil hword
      have hpos : lettersValue word - 1 + 1 = lettersValue word := by
        rw [← lettersValue_letterWord, hword]
      have hdiv : (26 * lettersValue word + d) / 26 = lettersValue word := by omega
      have hmod : (26 * lettersValue word + d) % 26 = d := by omega
      rw [letterWord_of_le (by omega), hdiv, hmod, hword]

theorem letterName_lettersValue {s : String} (h : IsLetterWord s.toList) :
    letterName (lettersValue s.toList - 1) = s := by
  rw [letterName, letterWord_lettersValue h, String.ofList_toList]

theorem toList_letterName (n : Nat) : (letterName n).toList = letterWord n :=
  String.toList_ofList

theorem bijOn_letterName (p : Nat → Prop) : Set.BijOn letterName {n | p n}
    {s | IsLetterWord s.toList ∧ p (lettersValue s.toList - 1)} := by
  refine ⟨fun n hn => ?_, fun m _ n _ => letterName_injective, fun s ⟨hs, hp⟩ => ?_⟩
  · rw [Set.mem_ofPred_eq, toList_letterName, lettersValue_letterWord]
    exact ⟨isLetterWord_letterWord n, hn⟩
  · exact ⟨_, hp, letterName_lettersValue hs⟩

section Order

variable {α : Type u} {r : α → α → Prop} {v w : List α}

theorem lex_append_of_length_eq (h : List.Lex r v w) (hlength : v.length = w.length)
    (v' w' : List α) : List.Lex r (v ++ v') (w ++ w') := by
  induction h with
  | nil => cases hlength
  | cons _ ih => exact .cons (ih (Nat.succ.inj hlength))
  | rel hr => exact .rel hr

theorem shortlex_append_singleton (h : List.Shortlex r v w) (a b : α) :
    List.Shortlex r (v ++ [a]) (w ++ [b]) := by
  rcases List.shortlex_def.1 h with hlt | ⟨hlength, hlex⟩
  · refine .of_length_lt ?_
    rw [List.length_append, List.length_append]
    exact Nat.add_lt_add_right hlt 1
  · refine .of_lex ?_ (lex_append_of_length_eq hlex hlength [a] [b])
    rw [List.length_append, List.length_append, hlength]
    rfl

end Order

theorem letter_lt_letter (h : m < n) (hn : n < 26) : letter m < letter n := by
  rw [Char.lt_def, UInt32.lt_iff_toNat_lt]
  change (letter m).toNat < (letter n).toNat
  rw [toNat_letter (Nat.lt_trans h hn), toNat_letter hn]
  exact Nat.add_lt_add_left h _

theorem shortlex_letterWord (h : m < n) :
    List.Shortlex (· < ·) (letterWord m) (letterWord n) := by
  induction n using letterWord.induct generalizing m with
  | case1 n hn =>
    rw [letterWord_of_lt hn, letterWord_of_lt (Nat.lt_trans h hn), List.shortlex_singleton_iff]
    exact letter_lt_letter h hn
  | case2 n hn ih =>
    rw [letterWord_of_le (Nat.not_lt.1 hn)]
    rcases Nat.lt_or_ge m 26 with hm | hm
    · refine .of_length_lt ?_
      rw [letterWord_of_lt hm, List.length_append]
      exact Nat.lt_add_of_pos_left (List.length_pos_iff.2 (letterWord_ne_nil _))
    · rw [letterWord_of_le hm]
      rcases Nat.lt_or_ge (m / 26) (n / 26) with hlt | hge
      · exact shortlex_append_singleton (ih (by omega)) _ _
      · rw [show m / 26 = n / 26 by omega]
        refine .append_left ?_ _
        rw [List.shortlex_singleton_iff]
        exact letter_lt_letter (by omega) (Nat.mod_lt n (by decide))

/-- The order of the numbers is that of their words. -/
theorem shortlex_letterWord_iff :
    List.Shortlex (· < ·) (letterWord m) (letterWord n) ↔ m < n := by
  refine ⟨fun h => Nat.lt_of_not_le fun hle => ?_, shortlex_letterWord⟩
  rcases Nat.eq_or_lt_of_le hle with rfl | hlt
  · exact asymm h h
  · exact asymm h (shortlex_letterWord hlt)

/-- A number that is still to be spelled, and the letters after it as bytes, the last one first. -/
structure Spelling where
  rest : UInt64
  letters : Array UInt8

namespace Spelling

def sub? (x y : UInt64) : Option UInt64 :=
  if y ≤ x then some (x - y) else none

/-- Write the last letter of the rest. Either this was the first one of all, or there is a smaller
rest. -/
def turn (t : Spelling) : Option (Array UInt8 ⊕ Spelling) :=
  let letters := t.letters.push (65 + (t.rest % 26).toUInt8)
  if t.rest < 26 then some (.inl letters)
  else (sub? (t.rest / 26) 1).map fun rest => .inr ⟨rest, letters⟩

def text (letters : Array UInt8) : List Char :=
  letters.toList.reverse.map fun b => Char.ofNat b.toNat

/-- The spelling of a number after some turns. -/
inductive Reaches (x : UInt64) : Nat → Spelling → Prop
  | initial : Reaches x 0 ⟨x, #[]⟩
  | turn {k : Nat} {t u : Spelling} (ht : Reaches x k t) (hu : t.turn = some (.inr u)) :
      Reaches x (k + 1) u

variable {x : UInt64} {k : Nat} {t u : Spelling} {letters : Array UInt8}

theorem length_text : (text letters).length = letters.size := by
  rw [text, List.length_map, List.length_reverse, Array.length_toList]

theorem text_push (y : UInt64) : text (letters.push (65 + (y % 26).toUInt8)) =
    letter (y.toNat % 26) :: text letters := by
  have hbyte : (65 + (y % 26).toUInt8).toNat = 'A'.toNat + y.toNat % 26 := by
    simp
    omega
  rw [text, Array.toList_push, List.reverse_append, List.map_append, List.reverse_singleton,
    List.map_singleton, hbyte]
  rfl

theorem turn_of_lt (h : t.rest.toNat < 26) : ∃ letters, t.turn = some (.inl letters) ∧
    text letters = letterWord t.rest.toNat ++ text t.letters := by
  refine ⟨_, if_pos (UInt64.lt_iff_toNat_lt.2 h), ?_⟩
  rw [text_push, Nat.mod_eq_of_lt h, letterWord_of_lt h]
  rfl

theorem turn_of_le (h : 26 ≤ t.rest.toNat) : ∃ u, t.turn = some (.inr u) ∧
    u.rest.toNat < t.rest.toNat ∧ u.letters.size = t.letters.size + 1 ∧
      letterWord u.rest.toNat ++ text u.letters = letterWord t.rest.toNat ++ text t.letters := by
  have hnot : ¬t.rest < 26 := fun hlt => Nat.not_lt.2 h (UInt64.lt_iff_toNat_lt.1 hlt)
  have hdiv : (t.rest / 26).toNat = t.rest.toNat / 26 := UInt64.toNat_div _ _
  have hone : 1 ≤ t.rest / 26 := by
    rw [UInt64.le_iff_toNat_le, hdiv]
    exact (Nat.one_le_div_iff (by decide)).2 h
  have hrest : (t.rest / 26 - 1).toNat = t.rest.toNat / 26 - 1 := by
    rw [UInt64.toNat_sub_of_le _ _ hone, hdiv]
    rfl
  refine ⟨⟨t.rest / 26 - 1, t.letters.push (65 + (t.rest % 26).toUInt8)⟩, ?_, ?_, ?_, ?_⟩
  · rw [turn, if_neg hnot, sub?, if_pos hone]
    rfl
  · rw [hrest]
    omega
  · exact Array.size_push _
  · rw [hrest, text_push, letterWord_of_le h, List.append_assoc, List.singleton_append]

/-- Every turn writes one letter of the number, and leaves those before it. -/
theorem Reaches.spells (h : Reaches x k t) : t.letters.size = k ∧
    letterWord t.rest.toNat ++ text t.letters = letterWord x.toNat := by
  induction h with
  | initial => exact ⟨rfl, List.append_nil _⟩
  | @turn k t u _ hu ih =>
    rcases Nat.lt_or_ge t.rest.toNat 26 with hlt | hle
    · obtain ⟨letters, hdone, -⟩ := turn_of_lt hlt
      rw [hdone] at hu
      cases hu
    · obtain ⟨u', hu', -, hsize, htext⟩ := turn_of_le hle
      obtain rfl : u' = u := Sum.inr.inj (Option.some.inj (hu'.symm.trans hu))
      exact ⟨by rw [hsize, ih.1], htext.trans ih.2⟩

theorem Reaches.lt_length (h : Reaches x k t) : k < (letterWord x.toNat).length := by
  obtain ⟨rfl, htext⟩ := h.spells
  rw [← htext, List.length_append, length_text]
  exact Nat.lt_add_of_pos_left (List.length_pos_iff.2 (letterWord_ne_nil _))

/-- A turn fails at no number: it ends with the word, or there is another turn. -/
theorem Reaches.exists_turn (h : Reaches x k t) :
    (∃ letters, t.turn = some (.inl letters) ∧ text letters = letterWord x.toNat) ∨
      ∃ u, t.turn = some (.inr u) ∧ u.rest.toNat < t.rest.toNat := by
  rcases Nat.lt_or_ge t.rest.toNat 26 with hlt | hle
  · obtain ⟨letters, hdone, htext⟩ := turn_of_lt hlt
    exact Or.inl ⟨letters, hdone, htext.trans h.spells.2⟩
  · obtain ⟨u, hu, hlt, -⟩ := turn_of_le hle
    exact Or.inr ⟨u, hu, hlt⟩

theorem Reaches.exists_done (h : Reaches x k t) : ∃ l u letters, Reaches x l u ∧
    u.turn = some (.inl letters) ∧ text letters = letterWord x.toNat := by
  induction hn : t.rest.toNat using Nat.strong_induction_on generalizing k t with
  | _ n ih =>
    subst hn
    rcases h.exists_turn with ⟨letters, hdone, htext⟩ | ⟨u, hu, hlt⟩
    · exact ⟨k, t, letters, h, hdone, htext⟩
    · exact ih _ hlt (h.turn hu) rfl

end Spelling

/-- Numbers and words of letters determine each other, in the order of the numbers; below a bound
are the numbers of the words whose value, counted from zero, is below it. Numbers of 64 bits are
spelled in no more turns than there are letters, and no turn goes below zero. -/
theorem letterName_spec :
    (∀ n, IsLetterWord (letterName n).toList ∧ lettersValue (letterName n).toList = n + 1) ∧
    (∀ s : String, IsLetterWord s.toList → letterName (lettersValue s.toList - 1) = s) ∧
    Set.BijOn letterName Set.univ {s | IsLetterWord s.toList} ∧
    (∀ bound, Set.BijOn letterName {n | n < bound}
      {s | IsLetterWord s.toList ∧ lettersValue s.toList - 1 < bound}) ∧
    (∀ m n, m < n ↔ List.Shortlex (· < ·) (letterName m).toList (letterName n).toList) ∧
    ∀ x : UInt64,
      (∀ k t, Spelling.Reaches x k t → k < (letterName x.toNat).length ∧
        ((∃ letters, t.turn = some (.inl letters) ∧
            Spelling.text letters = (letterName x.toNat).toList) ∨
          ∃ u, t.turn = some (.inr u) ∧ u.rest < t.rest)) ∧
      ∃ k t letters, Spelling.Reaches x k t ∧ t.turn = some (.inl letters) ∧
        Spelling.text letters = (letterName x.toNat).toList := by
  have huniv : Set.BijOn letterName Set.univ {s | IsLetterWord s.toList} := by
    simpa using bijOn_letterName fun _ => True
  simp only [toList_letterName]
  refine ⟨fun n => ⟨isLetterWord_letterWord n, lettersValue_letterWord n⟩,
    fun s => letterName_lettersValue, huniv, fun bound => bijOn_letterName (· < bound),
    fun m n => shortlex_letterWord_iff.symm, fun x => ⟨fun k t h => ⟨?_, ?_⟩, ?_⟩⟩
  · rw [letterName, String.length_ofList]
    exact h.lt_length
  · exact h.exists_turn
  · exact Spelling.Reaches.initial.exists_done

/-- The last word of two letters, the first one of three, and the last one for 64 bits. -/
example : lettersValue "ZZ".toList = 702 ∧ lettersValue "AAA".toList = 703 ∧
    lettersValue "GKGWBYLWRXTLPP".toList = UInt64.size := by
  decide

end Chomsky
