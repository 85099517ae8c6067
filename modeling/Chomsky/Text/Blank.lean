/-! # Blank characters

The property `White_Space` of Unicode, and texts as lists of characters cut at blanks, at
single characters and at arrows.
-/

namespace Chomsky.Text

def isBlank (c : Char) : Bool :=
  let n := c.toNat
  (0x09 ≤ n && n ≤ 0x0D) || n == 0x20 || n == 0x85 || n == 0xA0 || n == 0x1680 ||
    (0x2000 ≤ n && n ≤ 0x200A) || n == 0x2028 || n == 0x2029 || n == 0x202F || n == 0x205F ||
    n == 0x3000

def trim (s : List Char) : List Char :=
  ((s.dropWhile isBlank).reverse.dropWhile isBlank).reverse

/-- The pieces of a text between the characters that satisfy `p`, one more than there are
such characters. -/
def pieces (p : Char → Bool) : List Char → List (List Char)
  | [] => [[]]
  | c :: s =>
    if p c then [] :: pieces p s
    else match pieces p s with
      | [] => [[c]]
      | piece :: rest => (c :: piece) :: rest

/-- The maximal blank-free pieces of a text. -/
def words (s : List Char) : List (List Char) :=
  (pieces isBlank s).filter (!·.isEmpty)

def characters (s : String) : List String := s.toList.map String.singleton

def cutAtArrow : List Char → Option (List Char × List Char)
  | '-' :: '>' :: rest => some ([], rest)
  | c :: rest => (cutAtArrow rest).map fun (before, after) => (c :: before, after)
  | [] => none

theorem pieces_ne_nil (p : Char → Bool) (s : List Char) : pieces p s ≠ [] := by
  induction s with
  | nil => simp [pieces]
  | cons c s ih =>
    simp only [pieces]
    split
    · simp
    · split <;> simp

theorem not_sep_of_mem_pieces {p : Char → Bool} {s piece : List Char} {c : Char}
    (hp : piece ∈ pieces p s) (hc : c ∈ piece) : p c = false := by
  induction s generalizing piece with
  | nil => simp_all [pieces]
  | cons d s ih =>
    simp only [pieces] at hp
    split at hp
    · rcases List.mem_cons.1 hp with rfl | hp
      · simp at hc
      · exact ih hp hc
    · rename_i hd
      split at hp
      · next h => exact absurd h (pieces_ne_nil p s)
      · next first rest h =>
        rcases List.mem_cons.1 hp with rfl | hp
        · rcases List.mem_cons.1 hc with rfl | hc
          · simpa using hd
          · exact ih (h ▸ List.mem_cons_self) hc
        · exact ih (h ▸ List.mem_cons_of_mem _ hp) hc

theorem not_blank_of_mem_words {s word : List Char} {c : Char}
    (hw : word ∈ words s) (hc : c ∈ word) : isBlank c = false :=
  not_sep_of_mem_pieces (List.mem_filter.1 hw).1 hc

theorem ne_nil_of_mem_words {s word : List Char} (hw : word ∈ words s) : word ≠ [] := by
  have := (List.mem_filter.1 hw).2
  simpa using this

theorem eq_of_cutAtArrow {s before after : List Char} (h : cutAtArrow s = some (before, after)) :
    s = before ++ '-' :: '>' :: after := by
  fun_induction cutAtArrow s generalizing before after with
  | case1 rest => simp_all
  | case2 c rest _ ih =>
    obtain ⟨⟨b, a⟩, hb, heq⟩ := Option.map_eq_some_iff.1 h
    simp only [Prod.mk.injEq] at heq
    obtain ⟨rfl, rfl⟩ := heq
    simp [ih hb]
  | case3 => simp at h

end Chomsky.Text
