import Chomsky.Proofs.Grammar.Text

/-! # What a text defines

A text defines no grammar if a line gives no rule, if there is no line at all, or if a left part is
the sign for the empty word (`Rejects`); no other failure of the builder can be reached from a text.
Otherwise the alternatives of a left part are those of all its lines, and a name is a nonterminal if
it is a left part somewhere in the text or has an uppercase initial (`parse_spec`).
-/

namespace Chomsky

open Text

namespace GrammarDefinition

variable {line : List Char} {lines lines' : List (List Char)} {text : String}
  {entries : List (String × List (List String))}

def NamesNonterminal (entries : List (String × List (List String))) (name : String) : Prop :=
  name ∈ entries.map Prod.fst ∨ ∃ c ∈ name.toList.head?, isUppercase c

theorem ofText_of_malformed (hlines : ruleLines text = lines ++ line :: lines')
    (hbefore : ∀ line ∈ lines, ¬Malformed line) (hline : Malformed line) :
    ofText text = .error (.malformedRule (String.ofList line)) := by
  have hrules : ∀ line ∈ lines, ∃ rules, rulesOf line = .ok rules := fun line hline => by
    obtain ⟨entry, hentry⟩ := exists_gives_of_not_malformed (hbefore line hline)
    exact ⟨_, rulesOf_of_gives hentry⟩
  rw [ofText, hlines, mapM_eq_error hrules (rulesOf_of_malformed hline)]
  rfl

/-- Every text either has a first malformed line, or a reading of all lines. -/
theorem malformed_or_gives (text : String) :
    (∃ before line after, ruleLines text = before ++ line :: after ∧
      (∀ line ∈ before, ¬Malformed line) ∧ Malformed line) ∨
        ∃ entries, List.Forall₂ Gives (ruleLines text) entries := by
  by_cases h : ∀ line ∈ ruleLines text, ¬Malformed line
  · exact Or.inr (exists_forall₂ fun line hline => exists_gives_of_not_malformed (h line hline))
  · obtain ⟨before, line, after, hlines, hbefore, hline⟩ := exists_first_not h
    exact Or.inl ⟨before, line, after, hlines, hbefore, not_not.1 hline⟩

section Lines

variable (h : List.Forall₂ Gives lines entries)
include h

theorem alternatives_ne_nil : ∀ entry ∈ entries, entry.2 ≠ [] := by
  intro entry hentry
  obtain ⟨line, -, hline⟩ := (exists_of_forall₂ h).2 entry hentry
  exact hline.alternatives_ne_nil

theorem mem_map_fst_linesOf {name : String} :
    name ∈ (linesOf entries).map Prod.fst ↔ name ∈ entries.map Prod.fst := by
  rw [← mem_distinct, distinct_map_fst_linesOf (alternatives_ne_nil h), mem_distinct]

theorem validName_of_mem_namesOf (hleft : epsilon ∉ entries.map Prod.fst) :
    ∀ name ∈ namesOf (linesOf entries), validName name := by
  intro name hname
  obtain ⟨⟨lhs, rhs⟩, hrule, hname⟩ := mem_namesOf.1 hname
  obtain ⟨alts, hentry, hrhs⟩ := mem_linesOf.1 hrule
  obtain ⟨line, -, hline⟩ := (exists_of_forall₂ h).2 _ hentry
  rcases List.mem_cons.1 hname with rfl | hname
  · exact hline.validName.1 fun heq => hleft (heq ▸ List.mem_map_of_mem hentry)
  · exact hline.validName.2 rhs hrhs name hname

theorem suggestedKind_eq_nonterminal_iff {name : String} :
    suggestedKind (linesOf entries) name = .nonterminal ↔ NamesNonterminal entries name := by
  rw [suggestedKind, NamesNonterminal, ← mem_map_fst_linesOf h,
    ← SymbolKind.infer_eq_nonterminal_iff]
  by_cases hleft : name ∈ (linesOf entries).map Prod.fst
  · simp only [hleft, if_true, true_or]
  · simp only [hleft, if_false, false_or]

theorem build_of_epsilon_mem (hleft : epsilon ∈ entries.map Prod.fst) :
    (ofLines (linesOf entries)).build = .error (.invalidName epsilon) := by
  have hinvalid : ¬validName epsilon := fun hvalid => (SymbolTable.validName_iff.1 hvalid).2.2 rfl
  obtain ⟨name, hname, hbad, hbuild⟩ :=
    exists_build_ofLines_eq_error ⟨epsilon, (mem_map_fst_linesOf h).2 hleft, hinvalid⟩
  obtain ⟨entry, hentry, rfl⟩ := List.mem_map.1 ((mem_map_fst_linesOf h).1 hname)
  obtain ⟨line, -, hline⟩ := (exists_of_forall₂ h).2 entry hentry
  rw [hbuild, not_imp_comm.1 hline.validName.1 hbad]

theorem exists_infers_of_gives (hne : lines ≠ []) (hleft : epsilon ∉ entries.map Prod.fst) :
    ∃ g, (ofLines (linesOf entries)).build = .ok g ∧ g.Infers (linesOf entries) := by
  refine exists_infers (fun hnil => hne ?_) (validName_of_mem_namesOf h hleft)
  obtain rfl : entries = [] := List.eq_nil_iff_forall_not_mem.2 fun entry hentry => by
    have hmem := (mem_map_fst_linesOf h).2 (List.mem_map_of_mem hentry)
    rw [hnil] at hmem
    cases hmem
  exact List.forall₂_nil_right_iff.1 h

end Lines

end GrammarDefinition

open GrammarDefinition

/-- Why a text defines no grammar, with what is then reported. -/
inductive Rejects (text : String) : LanguageError → Prop
  | malformed {before after : List (List Char)} {line : List Char}
      (hlines : ruleLines text = before ++ line :: after)
      (hbefore : ∀ line ∈ before, ¬Malformed line) (hline : Malformed line) :
      Rejects text (.malformedRule (String.ofList line))
  | empty (hlines : ruleLines text = []) : Rejects text .emptyDefinition
  | leftEpsilon {entries : List (String × List (List String))}
      (hgives : List.Forall₂ Gives (ruleLines text) entries)
      (hleft : epsilon ∈ entries.map Prod.fst) : Rejects text (.invalidName epsilon)

namespace Grammar

variable {text : String} {lines : List (List Char)} {g : Grammar}
  {entries : List (String × List (List String))} {cause : LanguageError}

/-- A grammar whose start is the first left part, whose alternatives are those of the lines in their
order, and whose names have the kinds that all lines together suggest. -/
structure ReadFrom (g : Grammar) (entries : List (String × List (List String))) : Prop where
  start : entries.head?.map Prod.fst = some g.startName
  productions : g.namedProductions =
    (distinct (entries.map Prod.fst)).map fun lhs => (lhs, (partsOf lhs entries).flatten)
  nonterminals : ∀ name, (∃ s ∈ g.nonterminals, g.name s = name) ↔
    name ∈ namesOf (linesOf entries) ∧ NamesNonterminal entries name
  terminals : ∀ name, (∃ s ∈ g.terminals, g.name s = name) ↔
    name ∈ namesOf (linesOf entries) ∧ ¬NamesNonterminal entries name
  kind : ∀ name kind, g.kindNamed? name = some kind ↔
    name ∈ namesOf (linesOf entries) ∧ (kind = .nonterminal ↔ NamesNonterminal entries name)

theorem Infers.readFrom (h : g.Infers (linesOf entries))
    (hgives : List.Forall₂ Gives lines entries) : g.ReadFrom entries := by
  have halts := GrammarDefinition.alternatives_ne_nil hgives
  have hkind : ∀ name, suggestedKind (linesOf entries) name = .nonterminal ↔
      NamesNonterminal entries name := fun _ => suggestedKind_eq_nonterminal_iff hgives
  refine ⟨(head?_linesOf halts).symm.trans h.start, h.namedProductions_eq_flatten halts,
    fun name => ?_, fun name => ?_, fun name kind => ?_⟩
  · rw [h.exists_mem_nonterminals_iff, h.kind, eq_comm, hkind]
  · rw [h.exists_mem_terminals_iff, h.kind, ← hkind]
    cases suggestedKind (linesOf entries) name <;> simp
  · rw [h.kind, ← hkind]
    cases kind <;> cases suggestedKind (linesOf entries) name <;> simp

theorem parse_of_gives (h : List.Forall₂ Gives (ruleLines text) entries) :
    parse text = (ofLines (linesOf entries)).build := by
  rw [parse, ofText_eq_ok h, ok_bind]

theorem parse_of_rejects (h : Rejects text cause) : parse text = .error cause := by
  cases h with
  | malformed hlines hbefore hline =>
    rw [parse, ofText_of_malformed hlines hbefore hline]
    rfl
  | empty hlines =>
    have hgives : List.Forall₂ Gives (ruleLines text) [] := hlines ▸ .nil
    rw [parse_of_gives hgives]
    rfl
  | leftEpsilon hgives hleft => rw [parse_of_gives hgives, build_of_epsilon_mem hgives hleft]

/-- A text that is not rejected is read. -/
theorem rejects_or_readFrom (text : String) : (∃ cause, Rejects text cause) ∨
    ∃ entries g, List.Forall₂ Gives (ruleLines text) entries ∧ parse text = .ok g ∧
      g.ReadFrom entries := by
  rcases malformed_or_gives text with ⟨before, line, after, hlines, hbefore, hline⟩ | ⟨entries, h⟩
  · exact Or.inl ⟨_, .malformed hlines hbefore hline⟩
  · by_cases hnil : ruleLines text = []
    · exact Or.inl ⟨_, .empty hnil⟩
    · by_cases hleft : epsilon ∈ entries.map Prod.fst
      · exact Or.inl ⟨_, .leftEpsilon h hleft⟩
      · obtain ⟨g, hbuild, hinfers⟩ := exists_infers_of_gives h hnil hleft
        exact Or.inr ⟨entries, g, h, (parse_of_gives h).trans hbuild, hinfers.readFrom h⟩

/-- A text defines no grammar if and only if a line is malformed, of which the first is reported, or
else no line gives a rule, or else a left part is the sign for the empty word. Otherwise it defines
the grammar with the alternatives of its lines. -/
theorem parse_spec (text : String) :
    (∀ cause, parse text = .error cause ↔ Rejects text cause) ∧
      ((∀ cause, ¬Rejects text cause) → ∃ entries g,
        List.Forall₂ Gives (ruleLines text) entries ∧ parse text = .ok g ∧ g.ReadFrom entries) := by
  constructor
  · refine fun cause => ⟨fun h => ?_, parse_of_rejects⟩
    rcases rejects_or_readFrom text with ⟨cause', hrejects⟩ | ⟨entries, g, -, hg, -⟩
    · obtain rfl := Except.error.inj ((parse_of_rejects hrejects).symm.trans h)
      exact hrejects
    · cases hg.symm.trans h
  · exact fun h => (rejects_or_readFrom text).resolve_left fun ⟨cause, hrejects⟩ => h cause hrejects

theorem map_parse_scattered : (parse "s -> t + U | ε a ε |\r\n# more\n\n t -> | b\ns -> ->").map
    (fun g => (g.startName, g.namedProductions)) =
      .ok ("s", [("s", [["t", "+", "U"], ["a"], [], ["->"]]), ("t", [[], ["b"]])]) := by
  decide +kernel

theorem parse_spec_scattered :
    (∃ entries g, parse "s -> t + U | ε a ε |\r\n# more\n\n t -> | b\ns -> ->" = .ok g ∧
      g.ReadFrom entries ∧
        g.namedProductions = [("s", [["t", "+", "U"], ["a"], [], ["->"]]), ("t", [[], ["b"]])]) ∧
      Rejects "S -> a\n T a\n -> b" (.malformedRule "T a") ∧ Rejects "# more\n" .emptyDefinition ∧
        Rejects "S -> a\nε -> b" (.invalidName "ε") := by
  obtain ⟨g, hg, heq⟩ := map_eq_ok_iff.1 map_parse_scattered
  have hnot : ∀ cause, ¬Rejects "s -> t + U | ε a ε |\r\n# more\n\n t -> | b\ns -> ->" cause :=
    fun cause h => by cases hg.symm.trans (((parse_spec _).1 cause).2 h)
  obtain ⟨entries, g', -, hg', hread⟩ := (parse_spec _).2 hnot
  obtain rfl := Except.ok.inj (hg.symm.trans hg')
  refine ⟨⟨entries, g, hg, hread, (Prod.mk.inj heq).2⟩, ?_, ?_, ?_⟩
  · exact ((parse_spec _).1 _).1 (by cbv)
  · exact ((parse_spec _).1 _).1 (by cbv)
  · exact ((parse_spec _).1 _).1 (by cbv)

end Grammar
end Chomsky
