import Chomsky.Proofs.Grammar.Filled
import Chomsky.Proofs.Grammar.Narrowing
import Chomsky.Proofs.Grammar.NewNames
import Chomsky.Proofs.Grammar.Productivity
import Chomsky.Proofs.Grammar.Text
import Chomsky.Proofs.Symbol.Fresh
import Mathlib

/-! # Normal forms as text

The names that normalization adds do not cut the lines of a text, so that the text of a normal form
is always read back (`Legible.normalize`). What is read has the same words if every nonterminal has
an alternative; a start symbol without alternatives is read as one that derives the empty word.
-/

namespace Chomsky

/-- A name that can stand before the arrow of a line. -/
structure LeftName (name : String) : Prop where
  head : name.toList.head? ≠ some '#'
  arrow : ¬['-', '>'] <:+: name.toList

section Names

variable {name : String} {c : Char}

theorem arrow_isInfix_of_append {s t : List Char} (h : ['-', '>'] <:+: s ++ t) (ht : '>' ∉ t) :
    ['-', '>'] <:+: s := by
  obtain ⟨before, after, heq⟩ := h
  rcases List.append_eq_append_iff.1 heq with ⟨rest, rfl, -⟩ | ⟨rest, hrest, rfl⟩
  · exact ⟨before, rest, rfl⟩
  · rcases List.eq_nil_or_concat rest with rfl | ⟨rest, d, rfl⟩
    · rw [List.append_nil] at hrest
      exact ⟨before, [], by rw [List.append_nil, hrest]⟩
    · have hlast := congrArg List.getLast? hrest
      obtain rfl : '>' = d := by simpa using hlast
      exact absurd (by simp) ht

theorem LeftName.quoted (h : LeftName name) (hne : name.toList ≠ []) (n : Nat) :
    LeftName (quoted name n) where
  head := by
    rw [Chomsky.quoted, String.toList_append, List.head?_append_of_ne_nil _ hne]
    exact h.head
  arrow harrow := by
    rw [Chomsky.quoted, String.toList_append] at harrow
    refine h.arrow (arrow_isInfix_of_append harrow fun hmem => ?_)
    rw [String.toList_ofList] at hmem
    exact absurd (List.eq_of_mem_replicate hmem) (by decide)

theorem quoted_append_quote (name : String) (n : Nat) :
    quoted (name ++ "'") n = quoted name (n + 1) := by
  refine String.toList_inj.1 ?_
  simp [quoted, List.replicate_succ]

theorem eq_or_isDigit_of_mem_numbered {n : Nat} (hc : c ∈ (numbered "X" n).toList) :
    c = 'X' ∨ c.isDigit := by
  rw [SymbolTable.toList_numbered] at hc
  exact (List.mem_append.1 hc).imp List.mem_singleton.1 SymbolTable.isDigit_of_mem_toDigits

theorem leftName_numbered (n : Nat) : LeftName (numbered "X" n) where
  head := by
    rw [SymbolTable.toList_numbered]
    exact (by decide : some 'X' ≠ some '#')
  arrow harrow := by
    have hmem : '>' ∈ (numbered "X" n).toList :=
      harrow.subset (List.mem_cons_of_mem _ (List.mem_singleton_self _))
    exact absurd (eq_or_isDigit_of_mem_numbered hmem) (by decide)

theorem bar_not_mem_numbered (n : Nat) : '|' ∉ (numbered "X" n).toList := fun hc =>
  absurd (eq_or_isDigit_of_mem_numbered hc) (by decide)

end Names

namespace Grammar

variable {g n : Grammar} {lhs a : SymbolId} {w : Form} {text : String}

theorem Legible.leftName (hg : g.Legible) (hlhs : lhs ∈ g.productions.keys) :
    LeftName (g.name lhs) := by
  obtain ⟨entry, hentry, rfl⟩ := List.mem_map.1 hlhs
  have hreadable := hg.readable _ (List.mem_map_of_mem hentry)
  exact ⟨hreadable.head, hreadable.arrow⟩

theorem Legible.bar_not_mem (hg : g.Legible) (ha : g.occursOnRight a) :
    '|' ∉ (g.name a).toList := by
  obtain ⟨lhs, rhs, hrhs, ha⟩ := occursOnRight_iff.1 ha
  obtain ⟨alts, hentry, hmem⟩ := Productions.mem_alternatives_iff_exists_entry.1 hrhs
  have hreadable := hg.readable _ (List.mem_map_of_mem hentry)
  have hspell : g.spell rhs ∈ alts.map g.spell := List.mem_map_of_mem hmem
  exact hreadable.bar _ (List.mem_flatten_of_mem hspell (List.mem_map_of_mem ha))

theorem readable_of_names (hn : n.Consistent)
    (hleft : ∀ lhs ∈ n.productions.keys, LeftName (n.name lhs))
    (hright : ∀ a, n.occursOnRight a → '|' ∉ (n.name a).toList) :
    ∀ entry ∈ n.namedProductions, Readable entry := by
  intro entry hentry
  obtain ⟨⟨lhs, alts⟩, hmem, rfl⟩ := List.mem_map.1 hentry
  have hlhs : lhs ∈ n.productions.keys := List.mem_map_of_mem hmem
  have hname : ∀ name ∈ (alts.map n.spell).flatten,
      ∃ a, n.occursOnRight a ∧ a < n.symbols.size ∧ n.name a = name := by
    intro name hname
    obtain ⟨names, hnames, hname⟩ := List.mem_flatten.1 hname
    obtain ⟨rhs, hrhs, rfl⟩ := List.mem_map.1 hnames
    obtain ⟨a, ha, rfl⟩ := List.mem_map.1 hname
    have hrhs := Productions.mem_alternatives_iff_exists_entry.2 ⟨alts, hmem, hrhs⟩
    have hlt := hn.productions_over.symbol_lt hrhs a ha
    exact ⟨a, occursOnRight_iff.2 ⟨lhs, rhs, hrhs, ha⟩, hlt, rfl⟩
  refine ⟨List.forall_mem_cons.2 ⟨?_, fun name hmem => ?_⟩, (hleft lhs hlhs).head,
    (hleft lhs hlhs).arrow, fun name hmem => ?_⟩
  · exact hn.validName_name (hn.key_lt hlhs)
  · obtain ⟨a, -, hlt, rfl⟩ := hname name hmem
    exact hn.validName_name hlt
  · obtain ⟨a, ha, -, rfl⟩ := hname name hmem
    exact hright a ha

theorem Legible.leftName_startName (hg : g.Legible) (h : g.normalize = .ok n) :
    LeftName n.startName := by
  obtain ⟨s, hs, -, -, hnarrows, -, hn⟩ := exists_trim_narrows hg.consistent h
  have hleft : LeftName g.startName := hg.leftName (List.mem_of_head? hg.start)
  have hsame : s.startName = g.startName := by
    rw [startName, startName, name, name, hnarrows.start, hnarrows.symbols]
  rcases startName_binarizeWith hs hn with heq | ⟨k, heq⟩
  · rw [heq, hsame]
    exact hleft
  · rw [heq, hsame, quoted_append_quote]
    have hvalid := hg.consistent.validName_name hg.consistent.start_lt
    exact hleft.quoted (SymbolTable.validName_iff.1 hvalid).1 _

/-- The text of the normal form of a grammar that can be read can be read. -/
theorem Legible.normalize (hg : g.Legible) (h : g.normalize = .ok n) : n.Legible := by
  obtain ⟨s, hs, -, -, hnarrows, -, hn⟩ := exists_trim_narrows hg.consistent h
  obtain ⟨hext, -⟩ := symbols_normalizeWith hg.consistent h
  have hc := consistent_normalizeWith hg.consistent h
  have hname : ∀ {a}, a < g.symbols.size → n.name a = g.name a := fun hlt => hext.name_eq hlt
  refine ⟨hc, head?_keys_binarizeWith hs hn (hnarrows.start.symm ▸ hnarrows.head hg.start),
    readable_of_names hc (fun lhs hlhs => ?_) fun a ha => ?_⟩
  · rcases name_of_mem_keys_binarizeWith hs hn hlhs with rfl | hlhs | ⟨k, hk⟩
    · exact hg.leftName_startName h
    · have hlhs := hnarrows.key lhs hlhs
      rw [hname (hg.consistent.key_lt hlhs)]
      exact hg.leftName hlhs
    · rw [hk]
      exact leftName_numbered k
  · rcases name_of_occursOnRight_binarizeWith hs hn ha with ha | ⟨k, hk⟩
    · have ha := hnarrows.right a ha
      obtain ⟨lhs, rhs, hrhs, hmem⟩ := occursOnRight_iff.1 ha
      rw [hname (hg.consistent.productions_over.symbol_lt hrhs a hmem)]
      exact hg.bar_not_mem ha
    · rw [hk]
      exact bar_not_mem_numbered k

/-- The kinds of the names that the productions mention are those that the productions suggest. -/
def Suggests (g : Grammar) : Prop :=
  ∀ name ∈ namesOf g.lines, g.kindNamed? name = some (suggestedKind g.lines name)

theorem Filled.suggests (h : n.Filled) (hn : n.Consistent)
    (hterminal : ∀ a, n.isTerminal a → SymbolKind.infer (n.name a) = .terminal) : n.Suggests := by
  have hsymbol : ∀ {a}, a < n.symbols.size → (n.isTerminal a ∨ ∃ rhs, rhs ∈ n.alternatives a) →
      n.kindNamed? (n.name a) = some (suggestedKind n.lines (n.name a)) := by
    intro a hlt ha
    have hleft := hn.name_mem_map_fst_lines_iff hlt
    rw [kindNamed?_name hlt]
    by_cases hrule : ∃ rhs, rhs ∈ n.alternatives a
    · rw [suggestedKind, if_pos (hleft.2 hrule)]
      obtain ⟨rhs, hrhs⟩ := hrule
      exact SymbolTable.isNonterminal_iff.1 (hn.isNonterminal_lhs hrhs)
    · have hkind := ha.resolve_right hrule
      rw [suggestedKind, if_neg (mt hleft.1 hrule)]
      exact (SymbolTable.isTerminal_iff.1 hkind).trans (congrArg some (hterminal a hkind).symm)
  intro name hname
  obtain ⟨line, hline, hname⟩ := mem_namesOf.1 hname
  obtain ⟨lhs, rhs, hrhs, hlhs, hspell⟩ := mem_lines_iff.1 hline
  rw [← hlhs, ← hspell] at hname
  rcases List.mem_cons.1 hname with rfl | hname
  · exact hsymbol (hn.lhs_lt hrhs) (Or.inr ⟨rhs, hrhs⟩)
  · obtain ⟨a, ha, rfl⟩ := List.mem_map.1 hname
    exact hsymbol (hn.productions_over.symbol_lt hrhs a ha)
      (h.right a (occursOnRight_iff.2 ⟨lhs, rhs, hrhs, ha⟩))

theorem Filled.alternatives_ne_nil (h : n.Filled) : ∀ entry ∈ n.namedProductions, entry.2 ≠ [] := by
  intro entry hentry
  obtain ⟨⟨lhs, alts⟩, hmem, rfl⟩ := List.mem_map.1 hentry
  obtain ⟨rhs, hrhs⟩ := h.key lhs (List.mem_map_of_mem hmem)
  rw [Grammar.alternatives, Productions.alternatives_eq_of_mem_entries hmem] at hrhs
  exact mt List.map_eq_nil_iff.1 (List.ne_nil_of_mem hrhs)

/-- A grammar without gaps is read back with the same words. -/
theorem Legible.exists_generates_iff (h : n.Legible) (hfilled : n.Filled) (hsuggests : n.Suggests) :
    ∃ r, parse n.render = .ok r ∧ ∀ w, r.Generates w ↔ n.Generates w := by
  obtain ⟨r, hparse, hstart, hproductions, hinfers⟩ := h.exists_parse
  have hsame : n.namedProductions.map readBack = n.namedProductions :=
    map_readBack_of_ne_nil hfilled.alternatives_ne_nil
  rw [hsame] at hproductions hinfers
  refine ⟨r, hparse, fun w => ?_⟩
  refine generates_iff_of_namedProductions hinfers.consistent h.consistent hproductions ?_ hstart
  intro name hname
  rw [lines, hproductions] at hname
  rw [hsuggests name hname]
  exact (hinfers.kind name _).2 ⟨hname, rfl⟩

theorem generates_nil_of_mem (h : [] ∈ g.alternatives g.start) : g.Generates [] :=
  generatesFrom_iff.2 ⟨[], .of_rule h .nil, rfl⟩

theorem Legible.exists_generates_nil (h : n.Legible)
    (hproductions : n.namedProductions = [(n.startName, [])]) :
    ∃ r, parse n.render = .ok r ∧ ∀ w, r.Generates w ↔ w = [] := by
  obtain ⟨r, hparse, hstart, hread, hinfers⟩ := h.exists_parse
  rw [hproductions] at hread
  have hlines : r.lines = [(r.startName, [])] := by
    rw [lines, hread, hstart]
    rfl
  have hc := hinfers.consistent
  have hrule : ∀ {rhs}, rhs ∈ r.alternatives r.start → rhs = [] := by
    intro rhs hrhs
    have hline : (r.startName, r.spell rhs) ∈ r.lines :=
      mem_lines_iff.2 ⟨r.start, rhs, hrhs, rfl, rfl⟩
    rw [hlines, List.mem_singleton] at hline
    exact List.map_eq_nil_iff.1 (Prod.mk.inj hline).2
  have hnil : [] ∈ r.alternatives r.start := by
    have hleft : r.startName ∈ r.lines.map Prod.fst := by simp [hlines]
    obtain ⟨rhs, hrhs⟩ := (hc.name_mem_map_fst_lines_iff hc.start_lt).1 hleft
    exact hrule hrhs ▸ hrhs
  refine ⟨r, hparse, fun w => ⟨fun hw => ?_, ?_⟩⟩
  · obtain ⟨word, hword, hnames⟩ := generatesFrom_iff.1 hw
    obtain ⟨rhs, hrhs, hword⟩ := hword.exists_rule hc.not_isTerminal_start
    rw [hrule hrhs, expands_nil_iff] at hword
    subst hword
    exact List.map_eq_nil_iff.1 hnames.symm
  · rintro rfl
    exact generates_nil_of_mem hnil

theorem Infers.infer_eq_terminal {lines : List (String × List String)} (h : g.Infers lines)
    (ha : g.isTerminal a) : SymbolKind.infer (g.name a) = .terminal := by
  have hkind := SymbolTable.isTerminal_iff.1 ha
  rw [← kindNamed?_name (SymbolTable.lt_size_of_isTerminal ha)] at hkind
  obtain ⟨-, hsuggested⟩ := (h.kind _ _).1 hkind
  rw [suggestedKind] at hsuggested
  split at hsuggested
  · cases hsuggested
  · exact hsuggested.symm

theorem Filled.normalizeWith {names : NormalFormNames} (hg : g.Consistent)
    (h : g.normalizeWith names = .ok n) (hw : g.Expands [g.start] w) : n.Filled := by
  obtain ⟨s, hs, htrim, hempty, -, hiff, hn⟩ := exists_trim_narrows hg h
  have hw := (hiff w).2 hw
  exact (htrim.filled hs hw).binarizeWith htrim hempty hs hn hw

theorem Legible.namedProductions_normalize (hg : g.Legible) (h : g.normalize = .ok n)
    (hw : ¬∃ w, g.Expands [g.start] w) : n.namedProductions = [(n.startName, [])] := by
  obtain ⟨s, hs, htrim, -, -, hiff, hn⟩ := exists_trim_narrows hg.consistent h
  have hc := consistent_normalizeWith hg.consistent h
  have halts : n.alternatives n.start = [] :=
    htrim.alternatives_start_binarizeWith (by simpa only [hiff] using hw) hs hn
  have hkeys : ∀ lhs ∈ n.productions.keys, lhs = n.start := by
    intro lhs hlhs
    rcases (reached_normalizeWith hg.consistent h (hc.key_mem lhs hlhs)).cases_head with
      heq | ⟨a, ⟨rhs, hrhs, -⟩, -⟩
    · exact heq.symm
    · rw [halts] at hrhs
      cases hrhs
  cases hentries : n.productions.entries with
  | nil =>
    have hhead := (hg.normalize h).start
    rw [OrderedMap.keys, hentries] at hhead
    cases hhead
  | cons entry rest =>
    obtain ⟨lhs, alts⟩ := entry
    have hnodup := n.productions.nodup_keys
    rw [OrderedMap.keys, hentries] at hkeys hnodup
    obtain ⟨rfl, hrest⟩ := List.forall_mem_cons.1 hkeys
    have hmem : (n.start, alts) ∈ n.productions.entries := hentries ▸ List.mem_cons_self
    rw [alternatives, Productions.alternatives_eq_of_mem_entries hmem] at halts
    subst halts
    obtain rfl : rest = [] := List.eq_nil_iff_forall_not_mem.2 fun entry hentry => by
      have hmem := List.mem_map_of_mem (f := Prod.fst) hentry
      exact (List.nodup_cons.1 hnodup).1 (hrest _ hmem ▸ hmem)
    rw [namedProductions, hentries]
    rfl

/-- The text of the normal form of a grammar that was read from text is always read. If there is a
word, the words are those of the normal form; if there is none, the empty word is the only one. -/
theorem parse_render_normalize (hg : parse text = .ok g) (h : g.normalize = .ok n) :
    ∃ r, parse n.render = .ok r ∧
      ((∃ w, n.Generates w) → ∀ w, r.Generates w ↔ n.Generates w) ∧
      ((¬∃ w, n.Generates w) → ∀ w, r.Generates w ↔ w = []) := by
  obtain ⟨lines, hinfers, -⟩ := infers_of_parse hg
  have hc := hinfers.consistent
  have hlegible := (legible_of_parse hg).normalize h
  obtain ⟨hext, hterminal⟩ := symbols_normalizeWith hc h
  have hword : (∃ w, n.Generates w) ↔ ∃ w, g.Expands [g.start] w := by
    refine exists_generatesFrom_iff.trans ?_
    simp only [expands_normalizeWith_iff hc h]
  by_cases hw : ∃ w, n.Generates w
  · obtain ⟨w, hgw⟩ := hword.1 hw
    have hfilled : n.Filled := .normalizeWith hc h hgw
    have hsuggests : n.Suggests := hfilled.suggests (consistent_normalizeWith hc h) fun a ha => by
      rw [hterminal] at ha
      rw [name, hext.name_eq (SymbolTable.lt_size_of_isTerminal ha)]
      exact hinfers.infer_eq_terminal ha
    obtain ⟨r, hr, hiff⟩ := hlegible.exists_generates_iff hfilled hsuggests
    exact ⟨r, hr, fun _ => hiff, fun hnone => absurd hw hnone⟩
  · have hproductions := (legible_of_parse hg).namedProductions_normalize h (mt hword.2 hw)
    obtain ⟨r, hr, hiff⟩ := hlegible.exists_generates_nil hproductions
    exact ⟨r, hr, fun hsome => absurd hsome hw, fun _ => hiff⟩

theorem render_normalize_nested : ((parse "S -> a S b | ε").bind fun g => g.normalize.map fun n =>
    (n.alternatives n.start, n.render)) = .ok ([[4, 6], [4, 5], []],
      "S' -> X0 X2 | X0 X1 | ε\nS -> X0 X2 | X0 X1\nX0 -> a\nX1 -> b\nX2 -> S X1\n") := by
  decide +kernel

theorem parse_render_normalize_nested : ∃ g n, parse "S -> a S b | ε" = .ok g ∧
    g.normalize = .ok n ∧ (∃ w, n.Generates w) ∧
      n.render = "S' -> X0 X2 | X0 X1 | ε\nS -> X0 X2 | X0 X1\nX0 -> a\nX1 -> b\nX2 -> S X1\n" ∧
        ∃ r, parse n.render = .ok r ∧ ∀ w, r.Generates w ↔ n.Generates w := by
  obtain ⟨g, hg, hn⟩ := bind_eq_ok_iff.1 render_normalize_nested
  obtain ⟨n, hn, heq⟩ := map_eq_ok_iff.1 hn
  obtain ⟨halts, hrender⟩ := Prod.mk.inj heq
  have hword : ∃ w, n.Generates w := ⟨[], generates_nil_of_mem (by simp [halts])⟩
  obtain ⟨r, hr, hiff, -⟩ := parse_render_normalize hg hn
  exact ⟨g, n, hg, hn, hword, hrender, r, hr, hiff hword⟩

theorem render_normalize_endless : ((parse "S -> a S").bind fun g => g.normalize.bind fun n =>
    (parse n.render).map fun r => (n.render, n.alternatives n.start, r.alternatives r.start)) =
      .ok ("S -> \n", [], [[]]) := by
  decide +kernel

/-- Without words the text of a normal form shows an empty alternative that is not there. -/
theorem parse_render_normalize_endless : ∃ g n r, parse "S -> a S" = .ok g ∧ g.normalize = .ok n ∧
    parse n.render = .ok r ∧ r.Generates [] ∧ ¬n.Generates [] := by
  obtain ⟨g, hg, h⟩ := bind_eq_ok_iff.1 render_normalize_endless
  obtain ⟨n, hn, h⟩ := bind_eq_ok_iff.1 h
  obtain ⟨r, hr, heq⟩ := map_eq_ok_iff.1 h
  obtain ⟨-, halts, halts'⟩ := by simpa only [Prod.mk.injEq] using heq
  have hc := consistent_normalizeWith (legible_of_parse hg).consistent hn
  refine ⟨g, n, r, hg, hn, hr, generates_nil_of_mem (by simp [halts']), fun hw => ?_⟩
  obtain ⟨word, hword, -⟩ := generatesFrom_iff.1 hw
  obtain ⟨rhs, hrhs⟩ := hc.exists_mem_alternatives_start hword
  rw [halts] at hrhs
  cases hrhs

end Grammar
end Chomsky
