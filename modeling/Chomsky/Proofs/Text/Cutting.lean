import Chomsky.Text.Blank
import Mathlib.Data.List.Basic

/-! # Cutting texts that were put together

Pieces, words and sides of arrows of a text are those from which it was made, if none of them holds
what stands between them.
-/

namespace Chomsky.Text

variable {p : Char → Bool} {c : Char} {s t before after : List Char}

section Pieces

theorem pieces_append (hc : p c) (s t : List Char) :
    pieces p (s ++ c :: t) = pieces p s ++ pieces p t := by
  induction s with
  | nil => simp [pieces, hc]
  | cons d s ih =>
    rw [List.cons_append, pieces, pieces, ih]
    split
    · rfl
    · cases h : pieces p s with
      | nil => exact absurd h (pieces_ne_nil p s)
      | cons piece rest => rfl

theorem pieces_eq_singleton (h : ∀ c ∈ s, ¬p c) : pieces p s = [s] := by
  induction s with
  | nil => rfl
  | cons c s ih =>
    obtain ⟨hc, h⟩ := List.forall_mem_cons.1 h
    rw [pieces, if_neg hc, ih h]

theorem pieces_flatMap (hc : p c) {lines : List (List Char)}
    (h : ∀ line ∈ lines, ∀ c ∈ line, ¬p c) :
    pieces p (lines.flatMap fun line => line ++ [c]) = lines ++ [[]] := by
  induction lines with
  | nil => rfl
  | cons line lines ih =>
    obtain ⟨hline, h⟩ := List.forall_mem_cons.1 h
    rw [List.flatMap_cons, List.append_assoc, List.singleton_append, pieces_append hc,
      pieces_eq_singleton hline, ih h]
    rfl

theorem mem_of_mem_pieces {piece : List Char} (hp : piece ∈ pieces p s) (hc : c ∈ piece) :
    c ∈ s := by
  induction s generalizing piece with
  | nil =>
    rw [List.mem_singleton.1 hp] at hc
    cases hc
  | cons d s ih =>
    rw [pieces] at hp
    split at hp
    · rcases List.mem_cons.1 hp with rfl | hp
      · cases hc
      · exact List.mem_cons_of_mem d (ih hp hc)
    · cases h : pieces p s with
      | nil => exact absurd h (pieces_ne_nil p s)
      | cons first rest =>
        rw [h] at hp
        rcases List.mem_cons.1 hp with rfl | hp
        · rcases List.mem_cons.1 hc with rfl | hc
          · exact List.mem_cons_self
          · exact List.mem_cons_of_mem d (ih (h ▸ List.mem_cons_self) hc)
        · exact List.mem_cons_of_mem d (ih (h ▸ List.mem_cons_of_mem _ hp) hc)

end Pieces

section Words

theorem words_append (hc : isBlank c) (s t : List Char) :
    words (s ++ c :: t) = words s ++ words t := by
  rw [words, pieces_append hc, List.filter_append]
  rfl

theorem words_eq_singleton (hne : s ≠ []) (h : ∀ c ∈ s, ¬isBlank c) : words s = [s] := by
  rw [words, pieces_eq_singleton h]
  simp [hne]

theorem mem_of_mem_words {word : List Char} (hw : word ∈ words s) (hc : c ∈ word) : c ∈ s :=
  mem_of_mem_pieces (List.mem_filter.1 hw).1 hc

theorem words_blank_cons (hc : isBlank c) (s : List Char) : words (c :: s) = words s :=
  words_append hc [] s

theorem words_append_blank (hc : isBlank c) (s : List Char) : words (s ++ [c]) = words s :=
  (words_append hc s []).trans (List.append_nil _)

theorem words_intercalate (hc : isBlank c) {ws : List (List Char)}
    (h : ∀ w ∈ ws, w ≠ [] ∧ ∀ c ∈ w, ¬isBlank c) : words ([c].intercalate ws) = ws := by
  induction ws with
  | nil => rfl
  | cons w ws ih =>
    obtain ⟨⟨hne, hw⟩, h⟩ := List.forall_mem_cons.1 h
    cases ws with
    | nil => rw [List.intercalate_singleton, words_eq_singleton hne hw]
    | cons w' ws =>
      rw [List.intercalate_cons_cons, List.append_assoc, List.singleton_append, words_append hc,
        words_eq_singleton hne hw, ih h]
      rfl

theorem map_words_pieces_bar {parts : List (List Char)} (hne : parts ≠ [])
    (h : ∀ part ∈ parts, '|' ∉ part) :
    (pieces (· == '|') (' ' :: [' ', '|', ' '].intercalate parts)).map words =
      parts.map words := by
  have hblank : isBlank ' ' := by decide
  have hpart : ∀ {part : List Char}, '|' ∉ part → ∀ c ∈ part, ¬(c == '|') := fun h c hc heq =>
    h (beq_iff_eq.1 heq ▸ hc)
  induction parts with
  | nil => exact absurd rfl hne
  | cons part parts ih =>
    obtain ⟨hbar, h⟩ := List.forall_mem_cons.1 h
    cases parts with
    | nil =>
      have hsingle : pieces (· == '|') (' ' :: part) = [' ' :: part] :=
        pieces_eq_singleton (List.forall_mem_cons.2 ⟨by decide, hpart hbar⟩)
      rw [List.intercalate_singleton, hsingle, List.map_singleton, words_blank_cons hblank]
      rfl
    | cons part' parts =>
      have hlast : ∀ c ∈ part ++ [' '], ¬(c == '|') :=
        List.forall_mem_append.2 ⟨hpart hbar, List.forall_mem_singleton.2 (by decide)⟩
      have hfirst : ∀ c ∈ ' ' :: (part ++ [' ']), ¬(c == '|') :=
        List.forall_mem_cons.2 ⟨by decide, hlast⟩
      have hsplit : ' ' :: [' ', '|', ' '].intercalate (part :: part' :: parts) =
          ' ' :: (part ++ [' ']) ++ '|' :: ' ' :: [' ', '|', ' '].intercalate (part' :: parts) := by
        simp [List.intercalate_cons_cons]
      rw [hsplit, pieces_append (by decide), pieces_eq_singleton hfirst, List.map_append,
        ih (List.cons_ne_nil _ _) h, List.map_singleton, words_blank_cons hblank,
        words_append_blank hblank]
      rfl

end Words

section Intercalate

variable {sep : List Char} {parts : List (List Char)}

theorem mem_intercalate (hc : c ∈ sep.intercalate parts) :
    c ∈ sep ∨ ∃ part ∈ parts, c ∈ part := by
  induction parts with
  | nil => cases hc
  | cons part parts ih =>
    cases parts with
    | nil =>
      rw [List.intercalate_singleton] at hc
      exact Or.inr ⟨part, List.mem_cons_self, hc⟩
    | cons part' parts =>
      rw [List.intercalate_cons_cons, List.mem_append, List.mem_append] at hc
      rcases hc with (hc | hc) | hc
      · exact Or.inr ⟨part, List.mem_cons_self, hc⟩
      · exact Or.inl hc
      · refine (ih hc).imp_right fun ⟨x, hx, hc⟩ => ⟨x, List.mem_cons_of_mem _ hx, hc⟩

theorem intercalate_ne_nil (sep : List Char) (hparts : parts ≠ [])
    (hne : ∀ part ∈ parts, part ≠ []) : sep.intercalate parts ≠ [] := by
  cases parts with
  | nil => exact absurd rfl hparts
  | cons part parts =>
    have hpart := hne part List.mem_cons_self
    cases parts with
    | nil => rwa [List.intercalate_singleton]
    | cons part' parts =>
      rw [List.intercalate_cons_cons, List.append_assoc]
      exact List.append_ne_nil_of_left_ne_nil hpart _

theorem exists_getLast?_of_intercalate (hne : ∀ part ∈ parts, part ≠ [])
    (hc : c ∈ (sep.intercalate parts).getLast?) : ∃ part ∈ parts, c ∈ part.getLast? := by
  induction parts with
  | nil => cases hc
  | cons part parts ih =>
    cases parts with
    | nil =>
      rw [List.intercalate_singleton] at hc
      exact ⟨part, List.mem_cons_self, hc⟩
    | cons part' parts =>
      obtain ⟨-, hne⟩ := List.forall_mem_cons.1 hne
      have hrest := intercalate_ne_nil sep (List.cons_ne_nil part' parts) hne
      rw [List.intercalate_cons_cons, List.getLast?_append_of_ne_nil _ hrest] at hc
      obtain ⟨x, hx, hc⟩ := ih hne hc
      exact ⟨x, List.mem_cons_of_mem _ hx, hc⟩

end Intercalate

section Trim

/-- A text that neither starts nor ends with a blank. -/
structure Trimmed (s : List Char) : Prop where
  head : ∀ c ∈ s.head?, ¬isBlank c
  last : ∀ c ∈ s.getLast?, ¬isBlank c

theorem dropWhile_isBlank_eq (h : ∀ c ∈ s.head?, ¬isBlank c) : s.dropWhile isBlank = s := by
  cases s with
  | nil => rfl
  | cons c s => exact List.dropWhile_cons_of_neg (h c rfl)

theorem not_isBlank_head_dropWhile (s : List Char) :
    ∀ c ∈ (s.dropWhile isBlank).head?, ¬isBlank c := by
  intro c hc
  have hnot := List.head?_dropWhile_not isBlank s
  rw [Option.mem_def.1 hc] at hnot
  exact Bool.eq_false_iff.1 hnot

theorem trim_eq_of_head (h : ∀ c ∈ s.head?, ¬isBlank c) :
    trim s = (s.reverse.dropWhile isBlank).reverse := by
  rw [trim, dropWhile_isBlank_eq h]

theorem Trimmed.trim_eq (h : Trimmed s) : trim s = s := by
  rw [trim_eq_of_head h.head, dropWhile_isBlank_eq, List.reverse_reverse]
  rw [List.head?_reverse]
  exact h.last

theorem Trimmed.trim_append_blank (h : Trimmed s) (hc : isBlank c) : trim (s ++ [c]) = s := by
  cases s with
  | nil => simp [trim, hc]
  | cons d s =>
    have hhead : ∀ e ∈ (d :: s ++ [c]).head?, ¬isBlank e := h.head
    rw [trim_eq_of_head hhead, List.reverse_append, List.reverse_singleton, List.singleton_append,
      List.dropWhile_cons_of_pos hc, ← trim_eq_of_head h.head, h.trim_eq]

theorem head?_trim_of_head (h : ∀ c ∈ s.head?, ¬isBlank c) : (trim s).head? = s.head? := by
  cases s with
  | nil => rfl
  | cons c s =>
    have hc := h c rfl
    rw [trim_eq_of_head h, List.head?_reverse, List.reverse_cons, List.dropWhile_append]
    split <;> simp [hc]

theorem trim_isInfix (s : List Char) : trim s <:+: s := by
  have hdrop : (s.dropWhile isBlank).reverse.dropWhile isBlank <:+
      (s.dropWhile isBlank).reverse := List.dropWhile_suffix _
  have hstart := List.reverse_prefix.2 hdrop
  rw [List.reverse_reverse] at hstart
  exact hstart.isInfix.trans (List.dropWhile_suffix _).isInfix

theorem not_isBlank_head_trim (s : List Char) : ∀ c ∈ (trim s).head?, ¬isBlank c := by
  have hhead := not_isBlank_head_dropWhile s
  rw [show trim s = trim (s.dropWhile isBlank) from ?_, head?_trim_of_head hhead]
  · exact hhead
  · rw [trim_eq_of_head hhead, trim]

end Trim

section Arrow

theorem not_arrow_isInfix_of_cutAtArrow (h : cutAtArrow s = some (before, after)) :
    ¬['-', '>'] <:+: before := by
  fun_induction cutAtArrow s generalizing before after with
  | case1 rest =>
    cases h
    exact fun h => absurd h.length_le (by decide)
  | case2 c rest hne ih =>
    obtain ⟨⟨b, a⟩, hb, heq⟩ := Option.map_eq_some_iff.1 h
    obtain ⟨rfl, rfl⟩ := Prod.mk.inj heq
    rw [List.infix_cons_iff]
    rintro (hstart | hrest)
    · obtain ⟨rfl, x, rfl⟩ := List.cons_prefix_cons.1 hstart
      exact hne _ rfl (eq_of_cutAtArrow hb)
    · exact ih hb hrest
  | case3 => cases h

theorem cutAtArrow_of_not_isInfix (h : ¬['-', '>'] <:+: before) :
    cutAtArrow (before ++ '-' :: '>' :: after) = some (before, after) := by
  induction before with
  | nil => rfl
  | cons c s ih =>
    have hs : ¬['-', '>'] <:+: s := fun hs => h (hs.trans (List.suffix_cons c s).isInfix)
    have hne : ∀ rest, c = '-' → s ++ '-' :: '>' :: after = '>' :: rest → False := by
      rintro rest rfl heq
      cases s with
      | nil => cases heq
      | cons d s =>
        obtain ⟨rfl, -⟩ := List.cons.inj heq
        exact h (List.IsPrefix.isInfix (List.prefix_append ['-', '>'] s))
    rw [List.cons_append, cutAtArrow.eq_2 _ _ hne, ih hs]
    rfl

/-- A text is cut at its first arrow. -/
theorem cutAtArrow_eq_some_iff : cutAtArrow s = some (before, after) ↔
    s = before ++ '-' :: '>' :: after ∧ ¬['-', '>'] <:+: before := by
  constructor
  · exact fun h => ⟨eq_of_cutAtArrow h, not_arrow_isInfix_of_cutAtArrow h⟩
  · rintro ⟨rfl, h⟩
    exact cutAtArrow_of_not_isInfix h

theorem cutAtArrow_eq_none_iff : cutAtArrow s = none ↔ ¬['-', '>'] <:+: s := by
  constructor
  · intro h
    fun_induction cutAtArrow s with
    | case1 rest => cases h
    | case2 c rest hne ih =>
      rw [List.infix_cons_iff]
      rintro (hstart | hrest)
      · obtain ⟨rfl, x, rfl⟩ := List.cons_prefix_cons.1 hstart
        exact hne _ rfl rfl
      · exact ih (Option.map_eq_none_iff.1 h) hrest
    | case3 => exact fun h => absurd h.length_le (by decide)
  · intro h
    cases hcut : cutAtArrow s with
    | none => rfl
    | some parts =>
      refine absurd ⟨parts.1, parts.2, ?_⟩ h
      rw [eq_of_cutAtArrow hcut]
      simp

theorem cutAtArrow_append (h : ¬['-', '>'] <:+: s) :
    cutAtArrow (s ++ ' ' :: '-' :: '>' :: t) = some (s ++ [' '], t) := by
  refine cutAtArrow_eq_some_iff.2 ⟨List.append_cons s ' ' _, ?_⟩
  rw [List.infix_concat_iff, List.suffix_concat_iff]
  rintro ((hnil | ⟨x, heq, -⟩) | hs)
  · cases hnil
  · simpa using congrArg List.getLast? heq
  · exact h hs

end Arrow

end Chomsky.Text
