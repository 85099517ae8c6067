import Chomsky.Proofs.Grammar.Consistent
import Chomsky.Proofs.Grammar.Expansion

/-! # Grammars by name

What a grammar generates depends on the names of its symbols only, and not on their numbers: the
productions by name and the kinds of the names in them determine the words
(`generates_iff_of_namedProductions`).
-/

namespace Chomsky

theorem Expands.map {terminal terminal' p : SymbolId → Prop} {rule rule' : SymbolId → Form → Prop}
    {u w : Form} (f : SymbolId → SymbolId) (hterminal : ∀ a, p a → terminal a → terminal' (f a))
    (hrule : ∀ {lhs rhs}, rule lhs rhs → rule' (f lhs) (rhs.map f) ∧ ∀ s ∈ rhs, p s)
    (h : Expands terminal rule u w) (hu : ∀ s ∈ u, p s) :
    Expands terminal' rule' (u.map f) (w.map f) ∧ ∀ a ∈ w, p a := by
  induction h with
  | nil => exact ⟨.nil, nofun⟩
  | terminal ha _ ih =>
    obtain ⟨hp, hu⟩ := List.forall_mem_cons.1 hu
    obtain ⟨hmap, hw⟩ := ih hu
    exact ⟨.terminal (hterminal _ hp ha) hmap, List.forall_mem_cons.2 ⟨hp, hw⟩⟩
  | expand hlhs _ _ ih ih' =>
    obtain ⟨hlhs, hrhs⟩ := hrule hlhs
    obtain ⟨hmap, hv⟩ := ih hrhs
    obtain ⟨hmap', hw⟩ := ih' (List.forall_mem_cons.1 hu).2
    rw [List.map_append]
    exact ⟨.expand hlhs hmap hmap', List.forall_mem_append.2 ⟨hv, hw⟩⟩

def namesOf (lines : List (String × List String)) : List String :=
  lines.flatMap fun (lhs, rhs) => lhs :: rhs

def linesOf (entries : List (String × List (List String))) : List (String × List String) :=
  entries.flatMap fun (lhs, alts) => alts.map fun rhs => (lhs, rhs)

theorem mem_namesOf {lines : List (String × List String)} {name : String} :
    name ∈ namesOf lines ↔ ∃ line ∈ lines, name ∈ line.1 :: line.2 := List.mem_flatMap

theorem mem_linesOf {entries : List (String × List (List String))} {line : String × List String} :
    line ∈ linesOf entries ↔ ∃ alts, (line.1, alts) ∈ entries ∧ line.2 ∈ alts := by
  obtain ⟨lhs, rhs⟩ := line
  simp only [linesOf, List.mem_flatMap, List.mem_map, Prod.mk.injEq, Prod.exists]
  constructor
  · rintro ⟨_, alts, hmem, _, hrhs, rfl, rfl⟩
    exact ⟨alts, hmem, hrhs⟩
  · rintro ⟨alts, hmem, hrhs⟩
    exact ⟨lhs, alts, hmem, rhs, hrhs, rfl, rfl⟩

theorem head?_linesOf {entries : List (String × List (List String))}
    (h : ∀ entry ∈ entries, entry.2 ≠ []) :
    (linesOf entries).head?.map Prod.fst = entries.head?.map Prod.fst := by
  cases entries with
  | nil => rfl
  | cons entry entries =>
    obtain ⟨lhs, alts⟩ := entry
    obtain ⟨rhs, alts, rfl⟩ : ∃ rhs rest, alts = rhs :: rest :=
      List.exists_cons_of_ne_nil (h _ List.mem_cons_self)
    rfl

theorem SymbolTable.get?_name {t : SymbolTable} {s : SymbolId} (hs : s < t.size) :
    t.entries.get? (t.name s) = t.kind? s := by
  refine Option.ext fun kind => ?_
  rw [OrderedMap.get?_eq_some_iff, mem_entries_iff_kind? (lookup?_name hs)]

namespace Grammar

variable {g h : Grammar} {s s' lhs : SymbolId} {rhs form form' w : Form}

def namedProductions (g : Grammar) : List (String × List (List String)) :=
  g.productions.entries.map fun (lhs, alts) => (g.name lhs, alts.map g.spell)

def lines (g : Grammar) : List (String × List String) := linesOf g.namedProductions

def kindNamed? (g : Grammar) (name : String) : Option SymbolKind := g.symbols.entries.get? name

theorem kindNamed?_name (hs : s < g.symbols.size) : g.kindNamed? (g.name s) = g.symbols.kind? s :=
  SymbolTable.get?_name hs

theorem exists_of_kindNamed? {name : String} {kind : SymbolKind}
    (h : g.kindNamed? name = some kind) :
    ∃ s < g.symbols.size, g.name s = name ∧ g.symbols.kind? s = some kind := by
  obtain ⟨s, hs⟩ := List.mem_iff_getElem?.1 (OrderedMap.get?_eq_some_iff.1 h)
  rw [OrderedMap.getElem?_entries] at hs
  have hname : g.symbols.name? s = some name := by rw [SymbolTable.name?, hs, Option.map_some]
  have hkind : g.symbols.kind? s = some kind := by rw [SymbolTable.kind?, hs, Option.map_some]
  have hlt := SymbolTable.lt_size_of_name? hname
  exact ⟨s, hlt, Option.some.inj ((SymbolTable.name?_eq_some_name hlt).symm.trans hname), hkind⟩

section Sets

variable (hg : g.Consistent)
  (hall : ∀ s < g.symbols.size, s ∈ g.nonterminals ∨ s ∈ g.terminals) {name : String}
include hg hall

theorem Consistent.exists_mem_nonterminals_iff :
    (∃ s ∈ g.nonterminals, g.name s = name) ↔ g.kindNamed? name = some .nonterminal := by
  constructor
  · rintro ⟨s, hs, rfl⟩
    have hkind := hg.nonterminal s hs
    rw [kindNamed?_name (SymbolTable.lt_size_of_isNonterminal hkind)]
    exact SymbolTable.isNonterminal_iff.1 hkind
  · intro hname
    obtain ⟨s, hlt, hname, hkind⟩ := exists_of_kindNamed? hname
    refine ⟨s, (hall s hlt).resolve_right fun hs => ?_, hname⟩
    exact SymbolTable.not_isTerminal_of_isNonterminal (SymbolTable.isNonterminal_iff.2 hkind)
      (hg.terminal s hs)

theorem Consistent.exists_mem_terminals_iff :
    (∃ s ∈ g.terminals, g.name s = name) ↔ g.kindNamed? name = some .terminal := by
  constructor
  · rintro ⟨s, hs, rfl⟩
    have hkind := hg.terminal s hs
    rw [kindNamed?_name (SymbolTable.lt_size_of_isTerminal hkind)]
    exact SymbolTable.isTerminal_iff.1 hkind
  · intro hname
    obtain ⟨s, hlt, hname, hkind⟩ := exists_of_kindNamed? hname
    refine ⟨s, (hall s hlt).resolve_left fun hs => ?_, hname⟩
    exact SymbolTable.not_isTerminal_of_isNonterminal (hg.nonterminal s hs)
      (SymbolTable.isTerminal_iff.2 hkind)

end Sets

def translate (g h : Grammar) (s : SymbolId) : SymbolId := (h.symbols.lookup? (g.name s)).getD 0

theorem translate_eq (hs : s' < h.symbols.size) (hname : h.name s' = g.name s) :
    g.translate h s = s' := by
  rw [translate, ← hname]
  exact congrArg (·.getD 0) (SymbolTable.lookup?_name hs)

theorem map_translate (hlt : ∀ s ∈ form', s < h.symbols.size)
    (hspell : h.spell form' = g.spell form) : form.map (g.translate h) = form' := by
  have hmap : form.map (g.translate h) =
      (g.spell form).map fun x => (h.symbols.lookup? x).getD 0 := by
    rw [spell, List.map_map]
    rfl
  rw [hmap, ← hspell, spell, List.map_map]
  refine (List.map_congr_left fun s hs => ?_).trans (List.map_id form')
  exact congrArg (·.getD 0) (SymbolTable.lookup?_name (hlt s hs))

theorem mem_lines_iff {line : String × List String} : line ∈ g.lines ↔
    ∃ lhs rhs, rhs ∈ g.alternatives lhs ∧ g.name lhs = line.1 ∧ g.spell rhs = line.2 := by
  rw [lines, mem_linesOf]
  constructor
  · rintro ⟨alts, hmem, hrhs⟩
    obtain ⟨⟨lhs, forms⟩, hentry, heq⟩ := List.mem_map.1 hmem
    obtain ⟨hlhs, rfl⟩ := Prod.mk.inj heq
    obtain ⟨rhs, hmem, hrhs⟩ := List.mem_map.1 hrhs
    have hrule := Productions.mem_alternatives_iff_exists_entry.2 ⟨forms, hentry, hmem⟩
    exact ⟨lhs, rhs, hrule, hlhs, hrhs⟩
  · rintro ⟨lhs, rhs, hrhs, hname, hspell⟩
    obtain ⟨alts, hentry, hmem⟩ := Productions.mem_alternatives_iff_exists_entry.1 hrhs
    rw [← hname, ← hspell]
    exact ⟨alts.map g.spell, List.mem_map_of_mem hentry, List.mem_map_of_mem hmem⟩

theorem name_mem_namesOf (hrhs : rhs ∈ g.alternatives lhs) (hs : s ∈ rhs) :
    g.name s ∈ namesOf g.lines :=
  mem_namesOf.2 ⟨(g.name lhs, g.spell rhs), mem_lines_iff.2 ⟨lhs, rhs, hrhs, rfl, rfl⟩,
    List.mem_cons_of_mem _ (List.mem_map_of_mem hs)⟩

theorem Consistent.name_mem_map_fst_lines_iff (hg : g.Consistent) (hs : s < g.symbols.size) :
    g.name s ∈ g.lines.map Prod.fst ↔ ∃ rhs, rhs ∈ g.alternatives s := by
  simp only [List.mem_map]
  constructor
  · rintro ⟨line, hline, hname⟩
    obtain ⟨lhs, rhs, hrhs, hlhs, -⟩ := mem_lines_iff.1 hline
    obtain rfl := SymbolTable.name_injective (hg.lhs_lt hrhs) hs (hlhs.trans hname)
    exact ⟨rhs, hrhs⟩
  · rintro ⟨rhs, hrhs⟩
    exact ⟨(g.name s, g.spell rhs), mem_lines_iff.2 ⟨s, rhs, hrhs, rfl, rfl⟩, rfl⟩

theorem Consistent.exists_of_mem_namesOf (hg : g.Consistent) {name : String}
    (hname : name ∈ namesOf g.lines) : ∃ s < g.symbols.size, g.name s = name ∧
      (s ∈ g.nonterminals ∨ s ∈ g.terminals) := by
  obtain ⟨line, hline, hname⟩ := mem_namesOf.1 hname
  obtain ⟨lhs, rhs, hrhs, hlhs, hspell⟩ := mem_lines_iff.1 hline
  rw [← hlhs, ← hspell] at hname
  rcases List.mem_cons.1 hname with rfl | hname
  · exact ⟨lhs, hg.lhs_lt hrhs, rfl,
      Or.inl (hg.key_mem lhs (Productions.mem_keys_of_mem_alternatives hrhs))⟩
  · obtain ⟨s, hs, rfl⟩ := List.mem_map.1 hname
    exact ⟨s, hg.productions_over.symbol_lt hrhs s hs, rfl, hg.symbol_mem hrhs s hs⟩

theorem Consistent.validName_of_mem_namesOf (hg : g.Consistent) {name : String}
    (hname : name ∈ namesOf g.lines) : validName name := by
  obtain ⟨s, hs, rfl, -⟩ := hg.exists_of_mem_namesOf hname
  exact hg.validName_name hs

section Translate

variable (hg : g.Consistent) (hh : h.Consistent) (hps : g.namedProductions = h.namedProductions)
include hh hps

theorem translate_mem_alternatives (hrhs : rhs ∈ g.alternatives lhs) :
    rhs.map (g.translate h) ∈ h.alternatives (g.translate h lhs) ∧
      h.spell (rhs.map (g.translate h)) = g.spell rhs := by
  have hline : (g.name lhs, g.spell rhs) ∈ h.lines := by
    rw [lines, ← hps]
    exact mem_lines_iff.2 ⟨lhs, rhs, hrhs, rfl, rfl⟩
  obtain ⟨lhs', rhs', hrhs', hname, hspell'⟩ := mem_lines_iff.1 hline
  have hlt := hh.lhs_lt hrhs'
  rw [translate_eq hlt hname, map_translate (hh.productions_over.symbol_lt hrhs') hspell']
  exact ⟨hrhs', hspell'⟩

include hg

variable (hkind : ∀ name ∈ namesOf g.lines, g.kindNamed? name = h.kindNamed? name)
include hkind

theorem translate_terminal (hrhs : rhs ∈ g.alternatives lhs) (hs : s ∈ rhs)
    (hterminal : g.isTerminal s) : h.isTerminal (g.translate h s) ∧
      h.symbols.name? (g.translate h s) = g.symbols.name? s := by
  obtain ⟨hrhs', hspell⟩ := translate_mem_alternatives hh hps hrhs
  have hlt := hg.productions_over.symbol_lt hrhs s hs
  have hlt' := hh.productions_over.symbol_lt hrhs' _ (List.mem_map_of_mem hs)
  rw [spell, spell, List.map_map] at hspell
  have hname : h.name (g.translate h s) = g.name s := List.map_inj_left.1 hspell s hs
  have hsame : h.symbols.kind? (g.translate h s) = g.symbols.kind? s :=
    calc h.symbols.kind? (g.translate h s)
      _ = h.kindNamed? (h.name (g.translate h s)) := (kindNamed?_name hlt').symm
      _ = g.kindNamed? (g.name s) := by rw [hname, hkind _ (name_mem_namesOf hrhs hs)]
      _ = g.symbols.kind? s := kindNamed?_name hlt
  refine ⟨SymbolTable.isTerminal_iff.2 (hsame.trans (SymbolTable.isTerminal_iff.1 hterminal)), ?_⟩
  rw [SymbolTable.name?_eq_some_name hlt, SymbolTable.name?_eq_some_name hlt']
  exact congrArg some hname

theorem expands_translate (hw : g.Expands [g.start] w) :
    h.Expands [g.translate h g.start] (w.map (g.translate h)) ∧ ∀ a ∈ w, g.isTerminal a →
      h.isTerminal (g.translate h a) ∧ h.symbols.name? (g.translate h a) = g.symbols.name? a := by
  refine Expands.map (g.translate h) (fun a ha hterminal => (ha hterminal).1)
    (fun {lhs rhs} hrhs => ?_) hw (List.forall_mem_singleton.2 fun hstart => ?_)
  · exact ⟨(translate_mem_alternatives hh hps hrhs).1, fun s hs =>
      translate_terminal hg hh hps hkind hrhs hs⟩
  · exact absurd hstart hg.not_isTerminal_start

theorem generates_of_namedProductions (hstart : g.startName = h.startName) {names : List String}
    (hw : g.Generates names) : h.Generates names := by
  obtain ⟨w, hw, hnames⟩ := generatesFrom_iff.1 hw
  obtain ⟨hmap, hterminal⟩ := expands_translate hg hh hps hkind hw
  have hlt := hh.start_lt
  rw [translate_eq hlt hstart.symm] at hmap
  refine generatesFrom_iff.2 ⟨_, hmap, ?_⟩
  rw [← hnames, List.map_map]
  exact List.map_congr_left fun a ha => (hterminal a ha (hw.forall_terminal a ha)).2

/-- Grammars with the same names in the same places, of the same kinds, generate the same words. -/
theorem generates_iff_of_namedProductions (hstart : g.startName = h.startName)
    {names : List String} : g.Generates names ↔ h.Generates names := by
  constructor
  · exact generates_of_namedProductions hg hh hps hkind hstart
  · refine generates_of_namedProductions hh hg hps.symm (fun name hname => ?_) hstart.symm
    rw [lines, ← hps] at hname
    exact (hkind name hname).symm

end Translate

end Grammar
end Chomsky
