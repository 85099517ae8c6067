import Chomsky.Grammar.Hierarchy
import Chomsky.Proofs.RightLinear.Generator
import Chomsky.Proofs.RightLinear.Language
import Chomsky.Proofs.RightLinear.StateNaming

/-! # From automata to grammars and back

The grammar of an automaton derives the words that the automaton accepts, and its own automaton
accepts them again. Only names can keep an automaton from having a grammar. The automaton of a
grammar adds a state whose name may be that of a terminal (`exists_toGrammar_toAutomaton_iff`).
-/

namespace Chomsky

namespace Grammar

variable {g : Grammar}

theorem isRightLinear_of_rightLinear {rhs : Form} (h : g.RightLinear rhs) :
    g.symbols.isRightLinear rhs := by
  rcases h with rfl | ⟨b, rfl, -⟩ | ⟨b, m, rfl, hb, -⟩
  · rfl
  · rfl
  · exact List.all_eq_true.2 fun s hs => List.mem_singleton.1 hs ▸ hb

theorem Consistent.classify_eq_regular (hg : g.Consistent)
    (hlinear : ∀ rule ∈ g.rules, g.RightLinear rule.2) : g.classify = .regular := by
  have hcontextFree : ∀ rule ∈ g.rules, g.symbols.isContextFreeRule ⟨[rule.1], rule.2⟩ :=
    fun rule hrule => hg.isNonterminal_lhs (mem_rules.1 hrule)
  have hright : ∀ rule ∈ g.rules, g.symbols.isRightLinear rule.2 := fun rule hrule =>
    isRightLinear_of_rightLinear (hlinear rule hrule)
  rw [classify, SymbolTable.classify, List.all_map, List.all_map]
  refine (if_pos (List.all_eq_true.2 hcontextFree)).trans (if_pos ?_)
  rw [Bool.or_eq_true]
  exact Or.inl (List.all_eq_true.2 hright)

end Grammar

namespace Automaton

variable {a b : Automaton} {g : Grammar} {names : List String} {q r : StateId} {i : SymbolIndex}
  {w : List String} {s m : SymbolId}

theorem rule_nil_iff : a.Rule q [] ↔ q = a.start ∧ a.start ∈ a.accept := by
  constructor
  · intro h
    cases h with
    | nil h => exact ⟨rfl, h⟩
  · rintro ⟨rfl, h⟩
    exact .nil h

theorem rule_singleton_iff :
    a.Rule q [s] ↔ ∃ i, s = a.states.size + i ∧ ∃ r ∈ a.targets q i, r ∈ a.accept := by
  constructor
  · intro h
    cases h with
    | last h hr => exact ⟨_, rfl, _, h, hr⟩
  · rintro ⟨i, rfl, r, h, hr⟩
    exact .last h hr

theorem rule_pair_iff : a.Rule q [s, m] ↔ ∃ i, s = a.states.size + i ∧ m ∈ a.targets q i := by
  constructor
  · intro h
    cases h with
    | step h => exact ⟨_, rfl, h⟩
  · rintro ⟨i, rfl, h⟩
    exact .step h

namespace GrammarOf

variable (h : a.GrammarOf names g) (ha : a.WellFormed)
include h ha

theorem rightLinear {lhs : SymbolId} {rhs : Form} (hrhs : rhs ∈ g.alternatives lhs) :
    g.RightLinear rhs :=
  (h.mem_alternatives.1 hrhs).rightLinear h.lists h.length_eq ha

/-- A state derives the words that lead from it to an accepting state, but the empty word only
if it is the start. -/
theorem generatesFrom_iff (hq : q < a.states.size) :
    g.GeneratesFrom q w ↔ a.AcceptedFrom q w ∧ (w = [] → q = a.start) := by
  have hlinear : ∀ q, ∀ rhs ∈ g.alternatives q, g.RightLinear rhs := fun _ _ => h.rightLinear ha
  have hstate : ∀ {q}, q < a.states.size → g.symbols.isNonterminal q := fun hq =>
    (isNonterminal_iff_lt h.lists h.length_eq).2 hq
  induction w generalizing q with
  | nil =>
    rw [h.consistent.generatesFrom_nil_iff (hstate hq) (hlinear q), h.mem_alternatives,
      rule_nil_iff, acceptedFrom_nil_iff]
    constructor
    · rintro ⟨rfl, haccept⟩
      exact ⟨haccept, fun _ => rfl⟩
    · rintro ⟨haccept, hstart⟩
      obtain rfl := hstart rfl
      exact ⟨rfl, haccept⟩
  | cons x w ih =>
    have hname : ∀ {i}, g.symbols.name? (a.states.size + i) = some x ↔ a.symbolIndex? x = some i :=
      fun {i} => by
        rw [name?_symbol h.lists h.length_eq, symbolIndex?, OrderedSet.get?_idxOf?_iff, symbolName?]
    rw [h.consistent.generatesFrom_cons_iff (hstate hq) (hlinear q), acceptedFrom_cons_iff,
      and_iff_left fun hnil => absurd hnil (List.cons_ne_nil x w)]
    simp only [h.mem_alternatives, rule_singleton_iff, rule_pair_iff]
    constructor
    · rintro ⟨b, -, hb, ⟨⟨i, rfl, r, hr, haccept⟩, rfl⟩ | ⟨m, ⟨i, rfl, hm⟩, -, hw⟩⟩
      · exact ⟨i, hname.1 hb, r, hr, acceptedFrom_nil_iff.2 haccept⟩
      · exact ⟨i, hname.1 hb, m, hm, ((ih (ha.lt_of_mem_targets hm)).1 hw).1⟩
    · rintro ⟨i, hi, r, hr, hw⟩
      refine ⟨a.states.size + i, (isTerminal_add_iff h.lists h.length_eq).2
        (ha.symbol_lt_of_mem_targets hr), hname.2 hi, ?_⟩
      -- The last letter is derived alone, since its target need not derive the empty word.
      cases w with
      | nil => exact Or.inl ⟨⟨i, rfl, r, hr, acceptedFrom_nil_iff.1 hw⟩, rfl⟩
      | cons y w =>
        have hlt := ha.lt_of_mem_targets hr
        exact Or.inr ⟨r, ⟨i, rfl, hr⟩, hstate hlt,
          (ih hlt).2 ⟨hw, fun hnil => absurd hnil (List.cons_ne_nil y w)⟩⟩

/-- The grammar derives what the automaton accepts. -/
theorem generates_iff : g.Generates w ↔ a.accepts w := by
  rw [Grammar.Generates, h.start_eq, h.generatesFrom_iff ha ha.start_lt, accepts_iff_acceptedFrom]
  exact and_iff_left fun _ => rfl

theorem classify_eq_regular : g.classify = .regular :=
  h.consistent.classify_eq_regular fun _ hrule => h.rightLinear ha (Grammar.mem_rules.1 hrule)

theorem exists_toAutomaton : ∃ b, g.toAutomaton = .ok b :=
  h.consistent.exists_toAutomaton fun _ hrule => h.rightLinear ha (Grammar.mem_rules.1 hrule)

theorem accepts_eq (hb : g.toAutomaton = .ok b) (w : List String) : b.accepts w = a.accepts w := by
  rw [Bool.eq_iff_iff, Grammar.accepts_toAutomaton_iff h.consistent hb, h.generates_iff ha]

end GrammarOf

section Alphabet

variable (h : a.GrammarOf names g) (hb : g.toAutomaton = .ok b)
include h hb

/-- The symbols stand in the order in which the productions mention them, and then those that no
production mentions. -/
theorem GrammarOf.alphabet_eq : b.alphabet =
    .ofList ((g.rules.flatMap fun rule => g.spell (rule.2.filter g.isTerminal)) ++
      a.alphabet.toList) := by
  have hlt : ∀ s ∈ (g.rules.flatMap fun rule => rule.2.filter g.isTerminal) ++
      g.symbols.ids.filter g.isTerminal, s < g.symbols.size := by
    intro s hs
    rw [← OrderedSet.mem_ofList, ← h.terminals_eq] at hs
    exact SymbolTable.lt_size_of_isTerminal (h.consistent.terminal s hs)
  have hinjective : ∀ s ∈ (g.rules.flatMap fun rule => rule.2.filter g.isTerminal) ++
      g.symbols.ids.filter g.isTerminal,
      ∀ s' ∈ (g.rules.flatMap fun rule => rule.2.filter g.isTerminal) ++
        g.symbols.ids.filter g.isTerminal, g.name s = g.name s' → s = s' :=
    fun s hs s' hs' => SymbolTable.name_injective (hlt s hs) (hlt s' hs')
  refine OrderedSet.ext ?_
  rw [Grammar.toList_alphabet_toAutomaton h.consistent hb, h.terminals_eq,
    ← OrderedSet.toList_ofList_map hinjective, List.map_append, List.map_flatMap]
  exact congrArg (fun names => (OrderedSet.ofList (_ ++ names)).toList)
    h.lists.map_name_filter_isTerminal

theorem GrammarOf.mem_alphabet_iff {x : String} : x ∈ b.alphabet ↔ x ∈ a.alphabet := by
  rw [h.alphabet_eq hb, OrderedSet.mem_ofList, List.mem_append]
  refine or_iff_right_of_imp fun hx => ?_
  obtain ⟨rule, -, hx⟩ := List.mem_flatMap.1 hx
  obtain ⟨s, hs, rfl⟩ := List.mem_map.1 hx
  have hids : s ∈ g.symbols.ids.filter g.symbols.isTerminal := by
    have hterminal : g.symbols.isTerminal s := (List.mem_filter.1 hs).2
    exact List.mem_filter.2
      ⟨List.mem_range.2 (SymbolTable.lt_size_of_isTerminal hterminal), hterminal⟩
  exact h.lists.map_name_filter_isTerminal ▸ List.mem_map_of_mem hids

end Alphabet

section Outcome

variable (ha : a.WellFormed)
include ha

theorem WellFormed.grammarOf_of_toGrammar {naming : StateNaming} (h : a.toGrammar naming = .ok g) :
    ∃ names, a.GrammarOf names g := by
  obtain ⟨names, hnames, h⟩ := bind_eq_ok_iff.1 h
  exact ⟨names, grammarOf_of_build ha (nodup_nonterminalNames hnames)
    (length_nonterminalNames hnames) h⟩

/-- With the names of the states kept, there is a grammar if all names are valid and no state has
the name of a symbol. -/
theorem WellFormed.exists_toGrammar_preserve_iff : (∃ g, a.toGrammar .preserve = .ok g) ↔
    (∀ x, x ∈ a.states ∨ x ∈ a.alphabet → validName x) ∧ ∀ x ∈ a.states, x ∉ a.alphabet := by
  refine (exists_build_iff ha a.states.nodup OrderedSet.length_toList).trans ?_
  constructor
  · rintro ⟨hstates, hsymbols⟩
    exact ⟨fun x hx => hx.elim (hstates x) fun hx => (hsymbols x hx).1,
      fun x hx hx' => (hsymbols x hx').2 hx⟩
  · rintro ⟨hvalid, hdisjoint⟩
    exact ⟨fun x hx => hvalid x (Or.inl hx),
      fun x hx => ⟨hvalid x (Or.inr hx), fun hx' => hdisjoint x hx' hx⟩⟩

end Outcome

/-- The grammar of an automaton is regular and has the language of the automaton, and so has the
automaton of the grammar. It has the same symbols, in the order in which the productions mention
them. With the names of the states kept, there is a grammar if all names are valid and no state has
the name of a symbol. -/
theorem toGrammar_spec (ha : a.Obtainable) :
    (∀ naming g, a.toGrammar naming = .ok g →
      (∀ w, g.Generates w ↔ a.accepts w) ∧ g.classify = .regular ∧
      ∃ b, g.toAutomaton = .ok b ∧ (∀ w, b.accepts w = a.accepts w) ∧
        (∀ x, x ∈ b.alphabet ↔ x ∈ a.alphabet) ∧
        b.alphabet = .ofList ((g.rules.flatMap fun rule => g.spell (rule.2.filter g.isTerminal)) ++
          a.alphabet.toList)) ∧
    ((∃ g, a.toGrammar .preserve = .ok g) ↔
      (∀ x, x ∈ a.states ∨ x ∈ a.alphabet → validName x) ∧ ∀ x ∈ a.states, x ∉ a.alphabet) := by
  have hwf := ha.wellFormed
  refine ⟨fun naming g h => ?_, hwf.exists_toGrammar_preserve_iff⟩
  obtain ⟨names, hof⟩ := hwf.grammarOf_of_toGrammar h
  obtain ⟨b, hb⟩ := hof.exists_toAutomaton hwf
  exact ⟨fun w => hof.generates_iff hwf, hof.classify_eq_regular hwf, b, hb,
    hof.accepts_eq hwf hb, fun x => hof.mem_alphabet_iff hb, hof.alphabet_eq hb⟩

/-- One accepting state with a transition on the second of two symbols. -/
def secondOnly : AutomatonDefinition where
  states := some ["q"]
  alphabet := some ["a", "b"]
  transitions := [("q", "b", "q")]
  start := some "q"
  accept := ["q"]

theorem mentions_secondOnly : (secondOnly.build >>= fun a => (a.toGrammar .preserve).map fun g =>
    (a.alphabet.toList, g.rules.flatMap fun rule => g.spell (rule.2.filter g.isTerminal))) =
      .ok (["a", "b"], ["b", "b"]) := by
  decide +kernel

theorem toGrammar_spec_secondOnly : ∃ a g, secondOnly.build = .ok a ∧
    a.toGrammar .preserve = .ok g ∧ g.classify = .regular ∧ ∀ w, g.Generates w ↔ a.accepts w := by
  obtain ⟨a, ha, h⟩ := bind_eq_ok_iff.1 mentions_secondOnly
  obtain ⟨g, hg, -⟩ := map_eq_ok_iff.1 h
  obtain ⟨hlanguage, hregular, -⟩ := (toGrammar_spec (.build ha)).1 .preserve g hg
  exact ⟨a, g, ha, hg, hregular, hlanguage⟩

/-- The symbol that no production mentions moves to the end. -/
theorem alphabet_secondOnly_reordered : ∃ a g b, secondOnly.build = .ok a ∧
    a.toGrammar .preserve = .ok g ∧ g.toAutomaton = .ok b ∧
      a.alphabet.toList = ["a", "b"] ∧ b.alphabet.toList = ["b", "a"] := by
  obtain ⟨a, ha, h⟩ := bind_eq_ok_iff.1 mentions_secondOnly
  obtain ⟨g, hg, heq⟩ := map_eq_ok_iff.1 h
  obtain ⟨halphabet, hmentions⟩ := Prod.mk.inj heq
  have hwf := (Obtainable.build ha).wellFormed
  obtain ⟨names, hof⟩ := hwf.grammarOf_of_toGrammar hg
  obtain ⟨b, hb⟩ := hof.exists_toAutomaton hwf
  refine ⟨a, g, b, ha, hg, hb, halphabet, ?_⟩
  rw [hof.alphabet_eq hb, hmentions, halphabet, OrderedSet.toList_ofList]
  decide

end Automaton

namespace Grammar

variable {g : Grammar} {a : Automaton} {x : String}

theorem validName_sentinelName : validName g.sentinelName := by
  rw [sentinelName, withQuotes_eq]
  exact SymbolTable.validName_quoted (by decide) _

section RoundTrip

variable (hg : g.Consistent) (h : g.toAutomaton = .ok a)
include hg h

theorem mem_states_toAutomaton_iff :
    x ∈ a.states ↔ (∃ s ∈ g.nonterminals, g.name s = x) ∨ x = g.sentinelName := by
  obtain ⟨-, -, hstates, -⟩ := toAutomaton_eq_ok h
  rw [hstates, OrderedSet.mem_insert, OrderedSet.mem_def, hg.toList_stateNames, List.mem_map]
  rfl

theorem mem_alphabet_toAutomaton_iff : x ∈ a.alphabet ↔ ∃ s ∈ g.terminals, g.name s = x := by
  rw [OrderedSet.mem_def, toList_alphabet_toAutomaton hg h, List.mem_map]
  rfl

theorem validName_toAutomaton (hx : x ∈ a.states ∨ x ∈ a.alphabet) : validName x := by
  have hname : ∀ {s}, s < g.symbols.size → validName (g.name s) := fun hs =>
    hg.valid _ (SymbolTable.mem_names_of_name?
      (SymbolTable.lookup?_eq_some_iff.1 (SymbolTable.lookup?_name hs)))
  rcases hx with hx | hx
  · rcases (mem_states_toAutomaton_iff hg h).1 hx with ⟨s, hs, rfl⟩ | rfl
    · exact hname (SymbolTable.lt_size_of_isNonterminal (hg.nonterminal s hs))
    · exact validName_sentinelName
  · obtain ⟨s, hs, rfl⟩ := (mem_alphabet_toAutomaton_iff hg h).1 hx
    exact hname (SymbolTable.lt_size_of_isTerminal (hg.terminal s hs))

theorem eq_sentinelName_of_mem (hx : x ∈ a.states) (hx' : x ∈ a.alphabet) :
    x = g.sentinelName := by
  obtain ⟨s, hs, rfl⟩ := (mem_alphabet_toAutomaton_iff hg h).1 hx'
  refine ((mem_states_toAutomaton_iff hg h).1 hx).resolve_left ?_
  rintro ⟨s', hs', heq⟩
  have hterminal := hg.terminal s hs
  have hnonterminal := hg.nonterminal s' hs'
  obtain rfl := SymbolTable.name_injective (SymbolTable.lt_size_of_isNonterminal hnonterminal)
    (SymbolTable.lt_size_of_isTerminal hterminal) heq
  exact SymbolTable.not_isTerminal_of_isNonterminal hnonterminal hterminal

theorem exists_toGrammar_toAutomaton_iff : (∃ g', a.toGrammar .preserve = .ok g') ↔
    ∀ s ∈ g.terminals, g.name s ≠ g.sentinelName := by
  rw [(hg.wellFormed_toAutomaton h).exists_toGrammar_preserve_iff,
    and_iff_right fun x => validName_toAutomaton hg h]
  constructor
  · intro hdisjoint s hs heq
    exact hdisjoint g.sentinelName ((mem_states_toAutomaton_iff hg h).2 (Or.inr rfl))
      ((mem_alphabet_toAutomaton_iff hg h).2 ⟨s, hs, heq⟩)
  · intro hne x hx hx'
    obtain rfl := eq_sentinelName_of_mem hg h hx hx'
    obtain ⟨s, hs, heq⟩ := (mem_alphabet_toAutomaton_iff hg h).1 hx'
    exact hne s hs heq

theorem toGrammar_toAutomaton_eq_error {cause : LanguageError}
    (hcause : a.toGrammar .preserve = .error cause) : cause = .kindConflict g.sentinelName := by
  obtain ⟨x, hx', hx, rfl⟩ := Automaton.exists_mem_of_build_eq_error (hg.wellFormed_toAutomaton h)
    a.states.nodup OrderedSet.length_toList (fun x => validName_toAutomaton hg h) hcause
  rw [eq_sentinelName_of_mem hg h hx hx']

end RoundTrip

/-- The automaton of a right-linear grammar has a grammar again, unless a terminal has the name of
the extra state, which then is the cause. All four have one language. -/
theorem roundTrip_spec (hg : g.Obtainable) (h : g.toAutomaton = .ok a) :
    ((∃ g', a.toGrammar .preserve = .ok g') ↔ ∀ s ∈ g.terminals, g.name s ≠ g.sentinelName) ∧
    (∀ cause, a.toGrammar .preserve = .error cause → cause = .kindConflict g.sentinelName) ∧
    ∀ g', a.toGrammar .preserve = .ok g' → ∃ b, g'.toAutomaton = .ok b ∧ ∀ w,
      (a.accepts w ↔ g.Generates w) ∧ (g'.Generates w ↔ g.Generates w) ∧
        (b.accepts w ↔ g.Generates w) := by
  have hc := hg.consistent
  have hwf := hc.wellFormed_toAutomaton h
  refine ⟨exists_toGrammar_toAutomaton_iff hc h, fun cause => toGrammar_toAutomaton_eq_error hc h,
    fun g' hg' => ?_⟩
  obtain ⟨names, hof⟩ := hwf.grammarOf_of_toGrammar hg'
  obtain ⟨b, hb⟩ := hof.exists_toAutomaton hwf
  refine ⟨b, hb, fun w => ?_⟩
  have haccepts : a.accepts w ↔ g.Generates w := accepts_toAutomaton_iff hc h
  refine ⟨haccepts, (hof.generates_iff hwf).trans haccepts, ?_⟩
  rw [hof.accepts_eq hwf hb, haccepts]

def oneTerminal (x : String) : GrammarDefinition where
  terminals := some [x]
  rules := [("S", [x])]

/-- Whether a grammar is right-linear and leaves the extra state its first name, and the names of
the terminals. -/
def outline (g : Grammar) : Bool × List String :=
  (decide ((∀ rule ∈ g.rules, g.RightLinear rule.2) ∧ acceptName ∉ g.stateNames),
    g.terminals.toList.map g.name)

theorem exists_toAutomaton_of_outline {d : GrammarDefinition} {names : List String}
    (h : d.build.map outline = .ok (true, names)) : ∃ g a, d.build = .ok g ∧
      g.toAutomaton = .ok a ∧ g.sentinelName = acceptName ∧
        g.terminals.toList.map g.name = names := by
  obtain ⟨g, hg, heq⟩ := map_eq_ok_iff.1 h
  obtain ⟨hlinear, hnames⟩ := Prod.mk.inj heq
  obtain ⟨hlinear, hfree⟩ := of_decide_eq_true hlinear
  obtain ⟨a, ha⟩ := (GrammarDefinition.consistent_of_build hg).exists_toAutomaton hlinear
  exact ⟨g, a, hg, ha, sentinelName_of_not_mem hfree, hnames⟩

theorem roundTrip_spec_oneTerminal : ∃ g a g' b, (oneTerminal "a").build = .ok g ∧
    g.toAutomaton = .ok a ∧ a.toGrammar .preserve = .ok g' ∧ g'.toAutomaton = .ok b ∧
      ∀ w, b.accepts w ↔ g.Generates w := by
  have houtline : (oneTerminal "a").build.map outline = .ok (true, ["a"]) := by cbv
  obtain ⟨g, a, hg, ha, hsentinel, hnames⟩ := exists_toAutomaton_of_outline houtline
  obtain ⟨hiff, -, hlanguages⟩ := roundTrip_spec (.build hg) ha
  have hfree : ∀ s ∈ g.terminals, g.name s ≠ g.sentinelName := by
    intro s hs
    have hmem : g.name s ∈ g.terminals.toList.map g.name := List.mem_map_of_mem hs
    rw [hnames, List.mem_singleton] at hmem
    rw [hmem, hsentinel]
    decide
  obtain ⟨g', hg'⟩ := hiff.2 hfree
  obtain ⟨b, hb, hw⟩ := hlanguages g' hg'
  exact ⟨g, a, g', b, hg, ha, hg', hb, fun w => (hw w).2.2⟩

/-- The extra state gets the name of the terminal, and there is no way back. -/
theorem toGrammar_oneTerminal_accept_eq_error : ∃ g a, (oneTerminal acceptName).build = .ok g ∧
    g.toAutomaton = .ok a ∧ a.toGrammar .preserve = .error (.kindConflict acceptName) := by
  have houtline : (oneTerminal acceptName).build.map outline = .ok (true, [acceptName]) := by cbv
  obtain ⟨g, a, hg, ha, hsentinel, hnames⟩ := exists_toAutomaton_of_outline houtline
  have hc := GrammarDefinition.consistent_of_build hg
  refine ⟨g, a, hg, ha, ?_⟩
  obtain ⟨s, hs, hname⟩ := List.mem_map.1 (hnames ▸ List.mem_singleton_self acceptName)
  cases hgrammar : a.toGrammar .preserve with
  | error cause => rw [toGrammar_toAutomaton_eq_error hc ha hgrammar, hsentinel]
  | ok g' =>
    have hne := (exists_toGrammar_toAutomaton_iff hc ha).1 ⟨g', hgrammar⟩ s hs
    exact absurd (hname.trans hsentinel.symm) hne

end Grammar
end Chomsky
