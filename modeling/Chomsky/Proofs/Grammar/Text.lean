import Chomsky.Grammar.Text
import Chomsky.Proofs.Grammar.Inference
import Chomsky.Proofs.Text.Cutting
import Mathlib

/-! # Grammars as text and back

A line gives the alternatives between its bars to the left part before its first arrow (`Gives`).
Those are the left-hand side and the alternatives from which it was written, provided that their
names hold nothing that would cut them (`Readable`). Texts have no sign for a left-hand side
without alternatives, so that it is read back with the empty one.
-/

namespace Chomsky

open Text

variable {name : String} {names : List String} {alts : List (List String)}
  {entry : String × List (List String)} {entries : List (String × List (List String))} {c : Char}

namespace GrammarDefinition

variable {line before after : List Char} {rules : List (String × List String)}

/-- The parts before and after the first arrow of a line. -/
def FirstArrow (line before after : List Char) : Prop :=
  line = before ++ '-' :: '>' :: after ∧ ¬['-', '>'] <:+: before

/-- A line without an arrow, or with a left part that is empty or holds a blank. -/
def Malformed (line : List Char) : Prop :=
  ¬['-', '>'] <:+: line ∨ ∃ before after, FirstArrow line before after ∧
    (trim before = [] ∨ ∃ c ∈ trim before, isBlank c)

/-- What a line gives: its left part with the alternatives between the bars after the arrow. -/
def Gives (line : List Char) (entry : String × List (List String)) : Prop :=
  ∃ before after, FirstArrow line before after ∧ trim before ≠ [] ∧
    (∀ c ∈ trim before, ¬isBlank c) ∧
      entry = (String.ofList (trim before), (pieces (· == '|') after).map symbolsOf)

theorem rulesOf_of_malformed (h : Malformed line) :
    rulesOf line = .error (.malformedRule (String.ofList line)) := by
  rw [rulesOf]
  rcases h with h | ⟨before, after, hcut, h⟩
  · rw [cutAtArrow_eq_none_iff.2 h]
  · rw [cutAtArrow_eq_some_iff.2 hcut]
    dsimp only
    rw [if_pos]
    simpa only [Bool.or_eq_true, List.isEmpty_iff, List.any_eq_true] using h

theorem rulesOf_of_gives (h : Gives line entry) : rulesOf line = .ok (linesOf [entry]) := by
  obtain ⟨before, after, hcut, hne, hblank, rfl⟩ := h
  rw [rulesOf, cutAtArrow_eq_some_iff.2 hcut]
  dsimp only
  rw [if_neg]
  · simp [linesOf]
  · simp only [Bool.or_eq_true, List.isEmpty_iff, List.any_eq_true, not_or, not_exists, not_and]
    exact ⟨hne, hblank⟩

theorem exists_gives_of_not_malformed (h : ¬Malformed line) : ∃ entry, Gives line entry := by
  obtain ⟨harrow, hleft⟩ := not_or.1 h
  cases hcut : cutAtArrow line with
  | none => exact absurd (cutAtArrow_eq_none_iff.1 hcut) harrow
  | some parts =>
    obtain ⟨before, after⟩ := parts
    have hfirst : FirstArrow line before after := cutAtArrow_eq_some_iff.1 hcut
    have hgood := fun hbad => hleft ⟨before, after, hfirst, hbad⟩
    obtain ⟨hne, hblank⟩ := not_or.1 hgood
    exact ⟨_, before, after, hfirst, hne, fun c hc hb => hblank ⟨c, hc, hb⟩, rfl⟩

theorem Gives.alternatives_ne_nil (h : Gives line entry) : entry.2 ≠ [] := by
  obtain ⟨before, after, -, -, -, rfl⟩ := h
  exact mt List.map_eq_nil_iff.1 (pieces_ne_nil _ _)

theorem Gives.validName (h : Gives line entry) :
    (entry.1 ≠ epsilon → Chomsky.validName entry.1) ∧
      ∀ alt ∈ entry.2, ∀ name ∈ alt, Chomsky.validName name := by
  obtain ⟨before, after, -, hne, hblank, rfl⟩ := h
  constructor
  · intro hepsilon
    refine SymbolTable.validName_iff.2 ⟨?_, ?_, hepsilon⟩
    · rwa [String.toList_ofList]
    · rwa [String.toList_ofList]
  · intro alt halt name hname
    obtain ⟨piece, -, rfl⟩ := List.mem_map.1 halt
    obtain ⟨hword, hepsilon⟩ := List.mem_filter.1 hname
    obtain ⟨word, hmem, rfl⟩ := List.mem_map.1 hword
    refine SymbolTable.validName_iff.2 ⟨?_, ?_, bne_iff_ne.1 hepsilon⟩
    · rw [String.toList_ofList]
      exact ne_nil_of_mem_words hmem
    · rw [String.toList_ofList]
      exact fun c hc => Bool.eq_false_iff.1 (not_blank_of_mem_words hmem hc)

theorem rulesOf_eq_ok (h : rulesOf line = .ok rules) :
    ∃ entry, Gives line entry ∧ rules = linesOf [entry] := by
  by_cases hline : Malformed line
  · cases (rulesOf_of_malformed hline).symm.trans h
  · obtain ⟨entry, hentry⟩ := exists_gives_of_not_malformed hline
    exact ⟨entry, hentry, Except.ok.inj (h.symm.trans (rulesOf_of_gives hentry))⟩

/-- What a text defines is what its lines give, one after the other. -/
theorem ofText_eq_ok {text : String} (h : List.Forall₂ Gives (ruleLines text) entries) :
    ofText text = .ok (.ofLines (linesOf entries)) := by
  have hrules := mapM_eq_ok_of_forall₂ (h.imp fun _ _ => rulesOf_of_gives)
  have hlines : (entries.map fun entry => linesOf [entry]).flatten = linesOf entries := by
    simp [linesOf, List.flatMap_def]
  rw [ofText, hrules, ok_bind, hlines]
  rfl

end GrammarDefinition

def alternativeText (names : List String) : String :=
  if names = [] then epsilon else " ".intercalate names

def lineText (entry : String × List (List String)) : String :=
  entry.1 ++ " -> " ++ " | ".intercalate (entry.2.map alternativeText)

def readBack (entry : String × List (List String)) : String × List (List String) :=
  (entry.1, if entry.2 = [] then [[]] else entry.2)

theorem readBack_ne_nil (entry : String × List (List String)) : (readBack entry).2 ≠ [] := by
  unfold readBack
  split
  · exact List.cons_ne_nil _ _
  · assumption

theorem flatten_readBack (entry : String × List (List String)) :
    (readBack entry).2.flatten = entry.2.flatten := by
  unfold readBack
  split
  · next h => rw [h]; rfl
  · rfl

theorem map_readBack_of_ne_nil (h : ∀ entry ∈ entries, entry.2 ≠ []) :
    entries.map readBack = entries := by
  refine (List.map_congr_left fun entry hentry => ?_).trans (List.map_id entries)
  exact Prod.ext rfl (if_neg (h entry hentry))

/-- A left-hand side that neither makes its line a comment nor holds the arrow, and alternatives
without bars. -/
structure Readable (entry : String × List (List String)) : Prop where
  valid : ∀ name ∈ entry.1 :: entry.2.flatten, validName name
  head : entry.1.toList.head? ≠ some '#'
  arrow : ¬['-', '>'] <:+: entry.1.toList
  bar : ∀ name ∈ entry.2.flatten, '|' ∉ name.toList

section Alternative

theorem toList_alternativeText (hne : names ≠ []) :
    (alternativeText names).toList = [' '].intercalate (names.map String.toList) := by
  rw [alternativeText, if_neg hne, String.toList_intercalate]
  rfl

theorem mem_alternativeText (hc : c ∈ (alternativeText names).toList) :
    c = 'ε' ∨ c = ' ' ∨ ∃ name ∈ names, c ∈ name.toList := by
  by_cases hne : names = []
  · subst hne
    exact Or.inl (List.mem_singleton.1 hc)
  · rw [toList_alternativeText hne] at hc
    rcases mem_intercalate hc with hc | ⟨part, hpart, hc⟩
    · exact Or.inr (Or.inl (List.mem_singleton.1 hc))
    · obtain ⟨name, hname, rfl⟩ := List.mem_map.1 hpart
      exact Or.inr (Or.inr ⟨name, hname, hc⟩)

variable (h : ∀ name ∈ names, validName name)
include h

theorem forall_mem_map_toList :
    ∀ part ∈ names.map String.toList, part ≠ [] ∧ ∀ c ∈ part, ¬isBlank c := by
  intro part hpart
  obtain ⟨name, hname, rfl⟩ := List.mem_map.1 hpart
  obtain ⟨hne, hblank, -⟩ := SymbolTable.validName_iff.1 (h name hname)
  exact ⟨hne, hblank⟩

theorem filter_words_alternativeText :
    ((words (alternativeText names).toList).map String.ofList).filter (· != epsilon) = names := by
  by_cases hne : names = []
  · subst hne
    decide
  · rw [toList_alternativeText hne, words_intercalate (by decide) (forall_mem_map_toList h),
      List.map_map]
    have hid : names.map (String.ofList ∘ String.toList) = names :=
      (List.map_congr_left fun name _ => String.ofList_toList).trans (List.map_id names)
    rw [hid]
    refine List.filter_eq_self.2 fun name hname => bne_iff_ne.2 ?_
    exact (SymbolTable.validName_iff.1 (h name hname)).2.2

theorem alternativeText_ne_nil : (alternativeText names).toList ≠ [] := by
  by_cases hne : names = []
  · subst hne
    decide
  · rw [toList_alternativeText hne]
    exact intercalate_ne_nil _ (mt List.map_eq_nil_iff.1 hne) fun part hpart =>
      (forall_mem_map_toList h part hpart).1

theorem not_isBlank_last_alternativeText :
    ∀ c ∈ (alternativeText names).toList.getLast?, ¬isBlank c := by
  intro c hc
  by_cases hne : names = []
  · subst hne
    obtain rfl : 'ε' = c := Option.some.inj hc
    decide
  · rw [toList_alternativeText hne] at hc
    have hnames := forall_mem_map_toList h
    obtain ⟨part, hpart, hc⟩ :=
      exists_getLast?_of_intercalate (fun part hpart => (hnames part hpart).1) hc
    exact (hnames part hpart).2 c (List.mem_of_getLast? hc)

end Alternative

section Line

def afterArrow (alts : List (List String)) : List Char :=
  if alts = [] then []
  else ' ' :: [' ', '|', ' '].intercalate (alts.map fun names => (alternativeText names).toList)

theorem toList_lineText : (lineText entry).toList = entry.1.toList ++ ' ' :: '-' :: '>' :: ' ' ::
    [' ', '|', ' '].intercalate (entry.2.map fun names => (alternativeText names).toList) := by
  rw [lineText, String.toList_append, String.toList_append, String.toList_intercalate,
    List.map_map, List.append_assoc]
  rfl

variable (h : Readable entry)
include h

theorem Readable.validAlternative (hnames : names ∈ entry.2) : ∀ name ∈ names, validName name :=
  fun name hname => h.valid name (List.mem_cons_of_mem _ (List.mem_flatten_of_mem hnames hname))

theorem Readable.not_newline : ∀ c ∈ (lineText entry).toList, ¬(c == '\n') := by
  have hname : ∀ {name}, validName name → '\n' ∉ name.toList := fun hvalid hc =>
    (SymbolTable.validName_iff.1 hvalid).2.1 _ hc (by decide)
  intro c hc heq
  obtain rfl := beq_iff_eq.1 heq
  rw [toList_lineText, List.mem_append] at hc
  rcases hc with hc | hc
  · exact hname (h.valid entry.1 List.mem_cons_self) hc
  · have hc : '\n' ∈ [' ', '|', ' '].intercalate
        (entry.2.map fun names => (alternativeText names).toList) := by simpa using hc
    rcases mem_intercalate hc with hc | ⟨part, hpart, hc⟩
    · exact absurd hc (by decide)
    · obtain ⟨names, hnames, rfl⟩ := List.mem_map.1 hpart
      rcases mem_alternativeText hc with hc | hc | ⟨name, hmem, hc⟩
      · exact absurd hc (by decide)
      · exact absurd hc (by decide)
      · exact hname (h.validAlternative hnames name hmem) hc

theorem Readable.trimmed_lhs : Trimmed entry.1.toList := by
  obtain ⟨-, hblank, -⟩ := SymbolTable.validName_iff.1 (h.valid entry.1 List.mem_cons_self)
  constructor
  · exact fun c hc => hblank c (List.mem_of_head? hc)
  · exact fun c hc => hblank c (List.mem_of_getLast? hc)

theorem Readable.not_isBlank_head (s : List Char) :
    ∀ c ∈ (entry.1.toList ++ s).head?, ¬isBlank c := by
  obtain ⟨hne, -⟩ := SymbolTable.validName_iff.1 (h.valid entry.1 List.mem_cons_self)
  rw [List.head?_append_of_ne_nil _ hne]
  exact h.trimmed_lhs.head

theorem Readable.trim_lineText : trim (lineText entry).toList =
    entry.1.toList ++ ' ' :: '-' :: '>' :: afterArrow entry.2 := by
  rw [toList_lineText, afterArrow]
  split
  · next hnil =>
    have htrimmed : Trimmed (entry.1.toList ++ [' ', '-', '>']) :=
      ⟨h.not_isBlank_head _, fun c hc => by
        rw [List.getLast?_append_of_ne_nil _ (by decide)] at hc
        obtain rfl : '>' = c := Option.some.inj hc
        decide⟩
    have htrim := htrimmed.trim_append_blank (show isBlank ' ' by decide)
    rw [List.append_assoc] at htrim
    rw [hnil]
    exact htrim
  · next hne =>
    have hparts : ∀ part ∈ entry.2.map fun names => (alternativeText names).toList,
        part ≠ [] ∧ ∀ c ∈ part.getLast?, ¬isBlank c := by
      intro part hpart
      obtain ⟨names, hnames, rfl⟩ := List.mem_map.1 hpart
      have hvalid := h.validAlternative hnames
      exact ⟨alternativeText_ne_nil hvalid, not_isBlank_last_alternativeText hvalid⟩
    have hrest := intercalate_ne_nil [' ', '|', ' '] (mt List.map_eq_nil_iff.1 hne)
      fun part hpart => (hparts part hpart).1
    have hlast := List.getLast?_append_of_ne_nil (entry.1.toList ++ [' ', '-', '>', ' ']) hrest
    rw [List.append_assoc] at hlast
    refine Trimmed.trim_eq ⟨h.not_isBlank_head _, fun c hc => ?_⟩
    obtain ⟨part, hpart, hc⟩ :=
      exists_getLast?_of_intercalate (fun part hpart => (hparts part hpart).1) (hlast.symm.trans hc)
    exact (hparts part hpart).2 c hc

theorem Readable.map_symbolsOf_pieces :
    (pieces (· == '|') (afterArrow entry.2)).map GrammarDefinition.symbolsOf =
      (readBack entry).2 := by
  rw [afterArrow, readBack]
  split
  · rfl
  · next hne =>
    have hparts : (entry.2.map fun names => (alternativeText names).toList) ≠ [] :=
      mt List.map_eq_nil_iff.1 hne
    have hbar : ∀ part ∈ entry.2.map fun names => (alternativeText names).toList, '|' ∉ part := by
      intro part hpart hc
      obtain ⟨names, hnames, rfl⟩ := List.mem_map.1 hpart
      rcases mem_alternativeText hc with hc | hc | ⟨name, hmem, hc⟩
      · exact absurd hc (by decide)
      · exact absurd hc (by decide)
      · exact h.bar name (List.mem_flatten_of_mem hnames hmem) hc
    have hwords := congrArg (List.map fun ws : List (List Char) =>
      (ws.map String.ofList).filter (· != epsilon)) (map_words_pieces_bar hparts hbar)
    rw [List.map_map, List.map_map, List.map_map] at hwords
    refine hwords.trans ?_
    refine (List.map_congr_left fun names hnames => ?_).trans (List.map_id entry.2)
    exact filter_words_alternativeText (h.validAlternative hnames)

/-- A written line is read as it was written. -/
theorem Readable.gives_line : GrammarDefinition.Gives
    (entry.1.toList ++ ' ' :: '-' :: '>' :: afterArrow entry.2) (readBack entry) := by
  obtain ⟨hne, hblank, -⟩ := SymbolTable.validName_iff.1 (h.valid entry.1 List.mem_cons_self)
  have hfirst := cutAtArrow_eq_some_iff.1 (cutAtArrow_append (t := afterArrow entry.2) h.arrow)
  have htrim := h.trimmed_lhs.trim_append_blank (show isBlank ' ' by decide)
  refine ⟨entry.1.toList ++ [' '], afterArrow entry.2, hfirst, ?_, ?_, ?_⟩
  · rwa [htrim]
  · rwa [htrim]
  · rw [htrim, String.ofList_toList, h.map_symbolsOf_pieces]
    rfl

end Line

section Lines

def writtenText (entries : List (String × List (List String))) : String :=
  String.join (entries.map fun entry => lineText entry ++ "\n")

variable (h : ∀ entry ∈ entries, Readable entry)
include h

theorem ruleLines_writtenText : GrammarDefinition.ruleLines (writtenText entries) =
    entries.map fun entry => entry.1.toList ++ ' ' :: '-' :: '>' :: afterArrow entry.2 := by
  have htext : (writtenText entries).toList =
      (entries.map fun entry => (lineText entry).toList).flatMap fun line => line ++ ['\n'] := by
    rw [writtenText, String.toList_join, List.flatMap_map, List.flatMap_map]
    simp only [String.toList_append]
    rfl
  have hlines : ∀ line ∈ entries.map fun entry => (lineText entry).toList, ∀ c ∈ line,
      ¬(c == '\n') := by
    intro line hline
    obtain ⟨entry, hentry, rfl⟩ := List.mem_map.1 hline
    exact (h entry hentry).not_newline
  have htrim : (entries.map fun entry => (lineText entry).toList).map trim =
      entries.map fun entry => entry.1.toList ++ ' ' :: '-' :: '>' :: afterArrow entry.2 := by
    rw [List.map_map]
    exact List.map_congr_left fun entry hentry => (h entry hentry).trim_lineText
  rw [GrammarDefinition.ruleLines, htext, pieces_flatMap (by decide) hlines, List.map_append, htrim,
    List.filter_append, List.filter_eq_self.2]
  · exact List.append_nil _
  · intro line hline
    obtain ⟨entry, hentry, rfl⟩ := List.mem_map.1 hline
    have hvalid := (h entry hentry).valid entry.1 List.mem_cons_self
    have hne := (SymbolTable.validName_iff.1 hvalid).1
    rw [List.head?_append_of_ne_nil _ hne, Bool.and_eq_true, Bool.not_eq_true',
      List.isEmpty_eq_false_iff, bne_iff_ne]
    exact ⟨List.append_ne_nil_of_left_ne_nil hne _, (h entry hentry).head⟩

theorem ofText_writtenText : GrammarDefinition.ofText (writtenText entries) =
    .ok (.ofLines (linesOf (entries.map readBack))) := by
  refine GrammarDefinition.ofText_eq_ok ?_
  rw [ruleLines_writtenText h, List.forall₂_map_left_iff, List.forall₂_map_right_iff,
    List.forall₂_same]
  exact fun entry hentry => (h entry hentry).gives_line

end Lines

theorem readable_of_forall (hne : entry.2 ≠ [])
    (h : ∀ names ∈ entry.2, Readable (entry.1, [names])) : Readable entry := by
  obtain ⟨names, hnames⟩ := List.exists_mem_of_ne_nil entry.2 hne
  have hfirst := h names hnames
  refine ⟨List.forall_mem_cons.2 ⟨hfirst.valid _ List.mem_cons_self, fun name hname => ?_⟩,
    hfirst.head, hfirst.arrow, fun name hname => ?_⟩
  · obtain ⟨names, hnames, hname⟩ := List.mem_flatten.1 hname
    exact (h names hnames).valid name (by simp [hname])
  · obtain ⟨names, hnames, hname⟩ := List.mem_flatten.1 hname
    exact (h names hnames).bar name (by simp [hname])

section Reading

variable {line : List Char} {text : String} {rules : List (String × List String)}
  {rule : String × List String} {d : GrammarDefinition}

theorem of_mem_ruleLines (h : line ∈ GrammarDefinition.ruleLines text) :
    (∀ c ∈ line.head?, ¬isBlank c) ∧ line.head? ≠ some '#' := by
  obtain ⟨hline, hkept⟩ := List.mem_filter.1 h
  obtain ⟨raw, -, rfl⟩ := List.mem_map.1 hline
  exact ⟨not_isBlank_head_trim raw, bne_iff_ne.1 (Bool.and_eq_true_iff.1 hkept).2⟩

theorem readable_of_gives (hblank : ∀ c ∈ line.head?, ¬isBlank c) (hhead : line.head? ≠ some '#')
    (h : GrammarDefinition.Gives line entry) (hnames : names ∈ entry.2)
    (hvalid : ∀ name ∈ entry.1 :: names, validName name) : Readable (entry.1, [names]) := by
  obtain ⟨before, after, ⟨hline, harrow⟩, -, -, rfl⟩ := h
  obtain ⟨alt, halt, rfl⟩ := List.mem_map.1 hnames
  constructor
  case valid => simpa only [List.flatten_singleton] using hvalid
  case head =>
    rw [String.toList_ofList]
    cases before with
    | nil => exact nofun
    | cons c before =>
      rw [hline] at hblank hhead
      rw [head?_trim_of_head (s := c :: before) hblank]
      exact hhead
  case arrow =>
    rw [String.toList_ofList]
    exact fun hmem => harrow (hmem.trans (trim_isInfix before))
  case bar =>
    intro name hname hbar
    rw [List.flatten_singleton] at hname
    obtain ⟨word, hword, rfl⟩ := List.mem_map.1 (List.mem_filter.1 hname).1
    rw [String.toList_ofList] at hbar
    exact absurd (not_sep_of_mem_pieces halt (mem_of_mem_words hword hbar)) (by decide)

theorem readable_of_ofText (h : GrammarDefinition.ofText text = .ok d) :
    d = .ofLines d.rules ∧ ∀ rule ∈ d.rules, (∀ name ∈ rule.1 :: rule.2, validName name) →
      Readable (rule.1, [rule.2]) := by
  obtain ⟨rules, hrules, h⟩ := bind_eq_ok_iff.1 h
  obtain rfl := pure_eq_ok_iff.1 h
  refine ⟨rfl, fun (lhs, rhs) hrule => ?_⟩
  obtain ⟨part, hpart, hrule⟩ := List.mem_flatten.1 hrule
  obtain ⟨line, hline, hpart⟩ := exists_of_mem_mapM hrules part hpart
  obtain ⟨hblank, hhead⟩ := of_mem_ruleLines hline
  obtain ⟨entry, hgives, rfl⟩ := GrammarDefinition.rulesOf_eq_ok hpart
  obtain ⟨alts, hentry, hrhs⟩ := mem_linesOf.1 hrule
  obtain rfl := List.mem_singleton.1 hentry
  exact readable_of_gives hblank hhead hgives hrhs

end Reading

namespace Grammar

variable {g g' : Grammar} {text : String}

theorem renderEntry_eq (lhs : SymbolId) (alts : List Form) :
    g.renderEntry lhs alts = lineText (g.name lhs, alts.map g.spell) ++ "\n" := by
  have hrender : ∀ rhs : Form, g.symbols.render rhs = alternativeText (g.spell rhs) := by
    rintro (_ | ⟨s, rhs⟩)
    · rfl
    · exact (if_neg (List.cons_ne_nil _ _)).symm
  rw [renderEntry, lineText, List.map_map]
  exact congrArg (fun l => g.name lhs ++ " -> " ++ " | ".intercalate l ++ "\n")
    (List.map_congr_left fun rhs _ => hrender rhs)

/-- The text depends on the names in the productions only. -/
theorem render_eq (g : Grammar) : g.render = writtenText g.namedProductions := by
  rw [render, writtenText, namedProductions, List.map_map]
  exact congrArg String.join (List.map_congr_left fun entry _ => renderEntry_eq entry.1 entry.2)

/-- A grammar whose text is read as it was written. -/
structure Legible (g : Grammar) : Prop where
  consistent : g.Consistent
  start : g.productions.keys.head? = some g.start
  readable : ∀ entry ∈ g.namedProductions, Readable entry

theorem Consistent.nodup_map_fst_namedProductions (hg : g.Consistent) :
    (g.namedProductions.map Prod.fst).Nodup := by
  have hkeys : g.namedProductions.map Prod.fst = g.productions.keys.map g.name := by
    rw [namedProductions, OrderedMap.keys, List.map_map, List.map_map]
    rfl
  rw [hkeys]
  exact SymbolTable.nodup_map_name g.productions.nodup_keys fun lhs hlhs =>
    hg.key_lt hlhs

theorem head?_namedProductions (h : g.productions.keys.head? = some g.start) :
    g.namedProductions.head?.map Prod.fst = some g.startName := by
  rw [OrderedMap.keys, List.head?_map] at h
  obtain ⟨entry, hentry, hstart⟩ := Option.map_eq_some_iff.1 h
  rw [namedProductions, List.head?_map, hentry]
  exact congrArg (fun s => some (g.name s)) hstart

/-- The text of a legible grammar gives its productions by name, in their order. -/
theorem Legible.exists_parse (h : g.Legible) : ∃ g', parse g.render = .ok g' ∧
    g'.startName = g.startName ∧ g'.namedProductions = g.namedProductions.map readBack ∧
      g'.Infers (linesOf (g.namedProductions.map readBack)) := by
  have hne : ∀ entry ∈ g.namedProductions.map readBack, entry.2 ≠ [] := by
    intro entry hentry
    obtain ⟨entry, -, rfl⟩ := List.mem_map.1 hentry
    exact readBack_ne_nil entry
  have hkeys : (g.namedProductions.map readBack).map Prod.fst = g.namedProductions.map Prod.fst :=
    List.map_map
  have hhead : (linesOf (g.namedProductions.map readBack)).head?.map Prod.fst =
      some g.startName := by
    rw [head?_linesOf hne, ← List.head?_map, hkeys, List.head?_map, head?_namedProductions h.start]
  have hvalid : ∀ name ∈ namesOf (linesOf (g.namedProductions.map readBack)), validName name := by
    intro name hname
    obtain ⟨⟨lhs, rhs⟩, hline, hname⟩ := mem_namesOf.1 hname
    obtain ⟨alts, hmem, hrhs⟩ := mem_linesOf.1 hline
    obtain ⟨entry, hentry, heq⟩ := List.mem_map.1 hmem
    obtain ⟨rfl, rfl⟩ := Prod.mk.inj heq
    refine (h.readable entry hentry).valid name ?_
    rw [← flatten_readBack]
    rcases List.mem_cons.1 hname with rfl | hname
    · exact List.mem_cons_self
    · exact List.mem_cons_of_mem _ (List.mem_flatten_of_mem hrhs hname)
  have hlines : linesOf (g.namedProductions.map readBack) ≠ [] := by
    intro hnil
    rw [hnil] at hhead
    cases hhead
  obtain ⟨g', hbuild, hinfers⟩ := GrammarDefinition.exists_infers hlines hvalid
  refine ⟨g', ?_, ?_, ?_, hinfers⟩
  · rw [parse, render_eq, ofText_writtenText h.readable]
    exact hbuild
  · exact Option.some.inj (hinfers.start.symm.trans hhead)
  · refine hinfers.namedProductions_eq ?_ hne
    rw [hkeys]
    exact h.consistent.nodup_map_fst_namedProductions

theorem infers_of_parse (h : parse text = .ok g) : ∃ lines, g.Infers lines ∧
    ∀ line ∈ lines, (∀ name ∈ line.1 :: line.2, validName name) → Readable (line.1, [line.2]) := by
  obtain ⟨d, hd, hbuild⟩ := bind_eq_ok_iff.1 h
  obtain ⟨hlines, hreadable⟩ := readable_of_ofText hd
  rw [hlines] at hbuild
  exact ⟨d.rules, GrammarDefinition.infers_of_build hbuild, hreadable⟩

theorem legible_of_parse (h : parse text = .ok g) : g.Legible := by
  obtain ⟨lines, hinfers, hreadable⟩ := infers_of_parse h
  refine ⟨hinfers.consistent, hinfers.head?_keys, fun entry hentry => ?_⟩
  obtain ⟨lhs, alts⟩ := entry
  refine readable_of_forall (hinfers.alternatives_ne_nil _ hentry) fun names hnames => ?_
  have hline : (lhs, names) ∈ g.lines := mem_linesOf.2 ⟨alts, hentry, hnames⟩
  refine hreadable _ (hinfers.mem_iff.2 hline) fun name hname => ?_
  exact hinfers.consistent.validName_of_mem_namesOf (mem_namesOf.2 ⟨_, hline, hname⟩)

/-- The text of a grammar that was read from text is read again: with the same start symbol, the
same productions by name in the same order, and the same kinds. -/
theorem parse_render_of_parse (h : parse text = .ok g) : ∃ g', parse g.render = .ok g' ∧
    g'.startName = g.startName ∧ g'.namedProductions = g.namedProductions ∧
      (∀ name, g'.kindNamed? name = g.kindNamed? name) ∧ g'.render = g.render := by
  obtain ⟨lines, hinfers, -⟩ := infers_of_parse h
  obtain ⟨g', hparse, hstart, hproductions, hinfers'⟩ := (legible_of_parse h).exists_parse
  rw [map_readBack_of_ne_nil hinfers.alternatives_ne_nil] at hproductions hinfers'
  refine ⟨g', hparse, hstart, hproductions, ?_, ?_⟩
  · exact hinfers'.kindNamed?_eq hinfers fun line => hinfers.mem_iff.symm
  · rw [render_eq, hproductions, ← render_eq]

theorem render_scattered : (parse "S -> a T\nT -> b | ->\n# rest\nS -> | #").map render =
    .ok "S -> a T | ε | #\nT -> b | ->\n" := by
  decide +kernel

theorem parse_render_of_parse_scattered : ∃ g,
    parse "S -> a T\nT -> b | ->\n# rest\nS -> | #" = .ok g ∧
      g.render = "S -> a T | ε | #\nT -> b | ->\n" ∧ ∃ g', parse g.render = .ok g' ∧
        g'.namedProductions = g.namedProductions ∧ g'.render = g.render := by
  obtain ⟨g, hg, hrender⟩ := map_eq_ok_iff.1 render_scattered
  obtain ⟨g', hg', -, hproductions, -, hsame⟩ := parse_render_of_parse hg
  exact ⟨g, hg, hrender, g', hg', hproductions, hsame⟩

end Grammar

end Chomsky
