import Chomsky.Proofs.Grammar.EpsilonFree
import Chomsky.Proofs.Grammar.Variables

/-! # Binary grammars derive the same words

A start symbol of its own takes over what the old one derives (`Separates`). The alternatives of the
binary grammar read as those before, so that both derive the same words (`BinaryOf.expands_iff`).
-/

namespace Chomsky

open Variables

namespace Grammar

variable {g b s : Grammar} {t : SymbolTable} {start lhs a : SymbolId} {ps : Productions}
  {suffix : String} {names : NormalFormNames} {u w f rhs rhs' : Form} {v : Variables}

theorem occursOnRight_iff : g.occursOnRight a ↔ ∃ lhs rhs, rhs ∈ g.alternatives lhs ∧ a ∈ rhs := by
  simp only [occursOnRight, List.any_eq_true, List.mem_flatten, OrderedMap.mem_values_iff,
    decide_eq_true_eq, alternatives, Productions.mem_alternatives_iff]
  constructor
  · rintro ⟨rhs, ⟨alts, ⟨lhs, hget⟩, hrhs⟩, ha⟩
    exact ⟨lhs, rhs, ⟨alts, hget, hrhs⟩, ha⟩
  · rintro ⟨lhs, rhs, ⟨alts, hget, hrhs⟩, ha⟩
    exact ⟨rhs, ⟨alts, ⟨lhs, hget⟩, hrhs⟩, ha⟩

/-- What a start symbol of its own does to a grammar. -/
structure Separates (g : Grammar) (t : SymbolTable) (start : SymbolId) (ps : Productions) :
    Prop where
  ext : t.Extends g.symbols
  isTerminal_eq : t.isTerminal = g.symbols.isTerminal
  valid : g.symbols.Valid → t.Valid
  productions_over : ps.Over t
  nonterminal : t.isNonterminal start
  start_not_mem : ∀ {lhs rhs}, rhs ∈ ps.alternatives lhs → start ∉ rhs
  start_mem : ∀ {rhs}, rhs ∈ g.alternatives g.start → rhs ∈ ps.alternatives start
  own_mem : ∀ {lhs rhs}, rhs ∈ g.alternatives lhs → rhs ≠ [] → rhs ∈ ps.alternatives lhs
  of_mem : ∀ {lhs rhs}, rhs ∈ ps.alternatives lhs → lhs = start ∧ rhs ∈ g.alternatives g.start ∨
    lhs ≠ start ∧ rhs ∈ g.alternatives lhs ∧ (lhs = g.start → rhs ≠ [])

theorem separates_of_not_occursOnRight (hg : g.Consistent) (h : ¬g.occursOnRight g.start) :
    Separates g g.symbols g.start g.productions where
  ext := .refl _
  isTerminal_eq := rfl
  valid h := h
  productions_over := hg.productions_over
  nonterminal := hg.isNonterminal_start
  start_not_mem hrhs hmem := h (occursOnRight_iff.2 ⟨_, _, hrhs, hmem⟩)
  start_mem h := h
  own_mem h _ := h
  of_mem {lhs rhs} hrhs := by
    by_cases hlhs : lhs = g.start
    · exact Or.inl ⟨hlhs, hlhs ▸ hrhs⟩
    · exact Or.inr ⟨hlhs, hrhs, fun heq => absurd heq hlhs⟩

def ownProductions (g : Grammar) : Productions :=
  g.productions.mapValues fun lhs alts =>
    if lhs = g.start then alts.filter (!·.isEmpty) else alts

def withStart (g : Grammar) (start : SymbolId) : Productions :=
  .ofList ((start, g.alternatives g.start) :: g.ownProductions.entries)

theorem mem_ownProductions_iff : rhs ∈ g.ownProductions.alternatives lhs ↔
    rhs ∈ g.alternatives lhs ∧ (lhs = g.start → rhs ≠ []) := by
  have hown : ∀ alts : List Form, rhs ∈ (if lhs = g.start then alts.filter (!·.isEmpty) else alts) ↔
      rhs ∈ alts ∧ (lhs = g.start → rhs ≠ []) := by
    intro alts
    by_cases hlhs : lhs = g.start <;> simp [hlhs]
  rw [ownProductions, Productions.mem_alternatives_mapValues_iff]
  simp only [hown, alternatives, Productions.mem_alternatives_iff]
  constructor
  · rintro ⟨alts, hget, hrhs, hne⟩
    exact ⟨⟨alts, hget, hrhs⟩, hne⟩
  · rintro ⟨⟨alts, hget, hrhs⟩, hne⟩
    exact ⟨alts, hget, hrhs, hne⟩

section WithStart

variable (hstart : start ∉ g.productions.keys)
include hstart

theorem entries_withStart : (g.withStart start).entries =
    (start, g.alternatives g.start) :: g.ownProductions.entries := by
  apply OrderedMap.entries_ofList
  rw [List.map_cons, ← OrderedMap.keys, ownProductions, OrderedMap.keys_mapValues]
  exact List.nodup_cons.2 ⟨hstart, OrderedMap.nodup_keys _⟩

theorem keys_withStart : (g.withStart start).keys = start :: g.productions.keys := by
  rw [OrderedMap.keys, entries_withStart hstart, List.map_cons, ← OrderedMap.keys, ownProductions,
    OrderedMap.keys_mapValues]

theorem mem_withStart_iff : rhs ∈ (g.withStart start).alternatives lhs ↔
    lhs = start ∧ rhs ∈ g.alternatives g.start ∨
      rhs ∈ g.alternatives lhs ∧ (lhs = g.start → rhs ≠ []) := by
  rw [← mem_ownProductions_iff]
  simp only [Productions.mem_alternatives_iff, OrderedMap.get?_eq_some_iff,
    entries_withStart hstart, List.mem_cons, Prod.mk.injEq]
  constructor
  · rintro ⟨_, ⟨rfl, rfl⟩ | hentry, hrhs⟩
    · exact Or.inl ⟨rfl, hrhs⟩
    · exact Or.inr ⟨_, hentry, hrhs⟩
  · rintro (⟨rfl, hrhs⟩ | ⟨alts, hentry, hrhs⟩)
    · exact ⟨_, Or.inl ⟨rfl, rfl⟩, hrhs⟩
    · exact ⟨alts, Or.inr hentry, hrhs⟩

theorem exists_of_mem_withStart (hrhs : rhs ∈ (g.withStart start).alternatives lhs) :
    ∃ lhs', rhs ∈ g.alternatives lhs' := by
  rcases (mem_withStart_iff hstart).1 hrhs with ⟨-, hrhs⟩ | ⟨hrhs, -⟩
  · exact ⟨_, hrhs⟩
  · exact ⟨_, hrhs⟩

end WithStart

section NewStart

variable (hg : g.Consistent) (h : g.symbols.Grows .nonterminal start t)
include hg h

theorem not_mem_of_grows (hrhs : rhs ∈ g.alternatives lhs) : start ∉ rhs := fun hmem =>
  Nat.lt_irrefl _ (h.id_eq ▸ hg.productions_over.symbol_lt hrhs start hmem)

theorem not_mem_keys_of_grows : start ∉ g.productions.keys := fun hmem =>
  Nat.lt_irrefl _ (h.id_eq ▸ hg.key_lt hmem)

theorem over_withStart : (g.withStart start).Over t where
  key lhs hlhs := by
    rw [keys_withStart (not_mem_keys_of_grows hg h)] at hlhs
    rcases List.mem_cons.1 hlhs with rfl | hlhs
    · exact SymbolTable.isNonterminal_iff.2 h.kind_eq
    · exact h.ext.isNonterminal (hg.productions_over.key lhs hlhs)
  symbol_lt {lhs rhs} hrhs s hs := by
    obtain ⟨lhs', hrhs⟩ := exists_of_mem_withStart (not_mem_keys_of_grows hg h) hrhs
    exact Nat.lt_of_lt_of_le (hg.productions_over.symbol_lt hrhs s hs) h.ext.size_le

theorem separates_withStart : Separates g t start (g.withStart start) := by
  have hkey := not_mem_keys_of_grows hg h
  constructor
  case ext => exact h.ext
  case isTerminal_eq => exact h.isTerminal_eq
  case valid => exact h.valid
  case productions_over => exact over_withStart hg h
  case nonterminal => exact SymbolTable.isNonterminal_iff.2 h.kind_eq
  case start_not_mem =>
    intro lhs rhs hrhs
    obtain ⟨lhs', hrhs⟩ := exists_of_mem_withStart hkey hrhs
    exact not_mem_of_grows hg h hrhs
  case start_mem => exact fun hrhs => (mem_withStart_iff hkey).2 (Or.inl ⟨rfl, hrhs⟩)
  case own_mem => exact fun hrhs hne => (mem_withStart_iff hkey).2 (Or.inr ⟨hrhs, fun _ => hne⟩)
  case of_mem =>
    intro lhs rhs hrhs
    refine ((mem_withStart_iff hkey).1 hrhs).imp_right fun hmem => ⟨?_, hmem⟩
    rintro rfl
    exact hkey (Productions.mem_keys_of_mem_alternatives hmem.1)

end NewStart

/-- Only a start symbol that occurs in a right-hand side is replaced, and by a new one. -/
theorem separateStart_eq_ok (h : g.separateStart suffix = .ok (t, start, ps)) :
    (g.occursOnRight g.start ∧
      g.symbols.fresh (g.startName ++ suffix) .nonterminal = .ok (start, t) ∧
      ps = g.withStart start) ∨
    (¬g.occursOnRight g.start ∧ t = g.symbols ∧ start = g.start ∧ ps = g.productions) := by
  unfold separateStart at h
  split at h
  · next hoccurs =>
    obtain ⟨⟨id, symbols⟩, hfresh, h⟩ := bind_eq_ok_iff.1 h
    cases pure_eq_ok_iff.1 h
    exact Or.inl ⟨hoccurs, hfresh, rfl⟩
  · next hoccurs =>
    cases pure_eq_ok_iff.1 h
    exact Or.inr ⟨hoccurs, rfl, rfl, rfl⟩

theorem separates_of_separateStart (hg : g.Consistent)
    (h : g.separateStart suffix = .ok (t, start, ps)) : Separates g t start ps := by
  rcases separateStart_eq_ok h with ⟨-, hfresh, rfl⟩ | ⟨hoccurs, rfl, rfl, rfl⟩
  · exact separates_withStart hg (SymbolTable.grows_of_fresh hfresh)
  · exact separates_of_not_occursOnRight hg hoccurs

theorem mem_keys_of_separateStart (hg : g.Consistent)
    (h : g.separateStart suffix = .ok (t, start, ps)) (hlhs : lhs ∈ ps.keys) :
    lhs = start ∨ lhs ∈ g.productions.keys := by
  rcases separateStart_eq_ok h with ⟨-, hfresh, rfl⟩ | ⟨-, rfl, rfl, rfl⟩
  · have hkey := not_mem_keys_of_grows hg (SymbolTable.grows_of_fresh hfresh)
    exact List.mem_cons.1 (keys_withStart hkey ▸ hlhs)
  · exact Or.inr hlhs

theorem start_eq_or_occursOnRight (h : g.separateStart suffix = .ok (t, start, ps)) :
    start = g.start ∨ g.occursOnRight g.start := by
  rcases separateStart_eq_ok h with ⟨hoccurs, -, -⟩ | ⟨-, -, hstart, -⟩
  · exact Or.inr hoccurs
  · exact Or.inl hstart

theorem Separates.consistent (hg : g.Consistent) (h : Separates g t start ps) :
    (ofProductions t start ps).Consistent :=
  consistent_ofProductions (h.valid hg.valid) h.nonterminal h.productions_over

theorem Separates.isTerminal_ofProductions (h : Separates g t start ps) :
    (ofProductions t start ps).isTerminal = g.isTerminal := h.isTerminal_eq

/-- Every other symbol derives no more than before, and the start symbol what the old one did. -/
theorem Separates.expands_of (h : Separates g t start ps)
    (hw : (ofProductions t start ps).Expands u w) :
    g.Expands (u.flatMap fun s => if s = start then [g.start] else [s]) w := by
  simp only [Expands, h.isTerminal_ofProductions] at hw
  refine hw.simulate _ (fun a ha => if_neg ?_) fun {lhs rhs w} hrule hrhs => ?_
  · rintro rfl
    apply SymbolTable.not_isTerminal_of_isNonterminal h.nonterminal
    rw [h.isTerminal_eq]
    exact ha
  · have hsame : (rhs.flatMap fun s => if s = start then [g.start] else [s]) = rhs := by
      refine Eq.trans ?_ (List.flatMap_singleton' rhs)
      refine List.flatMap_congr fun s hs => if_neg ?_
      rintro rfl
      exact h.start_not_mem hrule hs
    rw [hsame] at hrhs
    rcases h.of_mem hrule with ⟨heq, hmem⟩ | ⟨hne, hmem, -⟩
    · rw [if_pos heq]
      exact .of_rule hmem hrhs
    · rw [if_neg hne]
      exact .of_rule hmem hrhs

theorem Separates.expands_start_of (h : Separates g t start ps)
    (hw : (ofProductions t start ps).Expands [start] w) : g.Expands [g.start] w := by
  have hw := h.expands_of hw
  rwa [List.flatMap_singleton, if_pos rfl] at hw

theorem Separates.expandsNonempty (h : Separates g t start ps) (hw : g.ExpandsNonempty u w) :
    (ofProductions t start ps).Expands u w := by
  simp only [Expands, h.isTerminal_ofProductions]
  exact hw.mono fun ⟨hmem, hne⟩ => h.own_mem hmem hne

theorem EmptyOnlyAtStart.expands_separates_iff (hg : g.EmptyOnlyAtStart) (hc : g.Consistent)
    (h : Separates g t start ps) :
    (ofProductions t start ps).Expands [start] w ↔ g.Expands [g.start] w := by
  refine ⟨h.expands_start_of, fun hw => ?_⟩
  by_cases hne : w = []
  · subst hne
    exact .of_rule (h.start_mem (hg.nil_mem hw)) .nil
  · obtain ⟨rhs, ⟨hmem, -⟩, hrhs⟩ := (hg.nonempty hw hne).exists_rule hc.not_isTerminal_start
    exact .of_rule (h.start_mem hmem) (h.expandsNonempty hrhs)

/-- A grammar whose alternatives are those of another one made binary, and the definitions of the
variables. -/
structure BinaryOf (s b : Grammar) (v : Variables) : Prop where
  invariant : v.Invariant s.symbols (fun a => s.occursOnRight a) []
  symbols : b.symbols = v.symbols
  start : b.start = s.start
  definition : ∀ {lhs rhs}, (lhs, rhs) ∈ v.definitions → rhs ∈ b.alternatives lhs
  forth : ∀ {lhs rhs}, rhs ∈ s.alternatives lhs → ∃ rhs' ∈ b.alternatives lhs,
    Binarizes s.symbols (fun a => s.occursOnRight a) v rhs rhs'
  back : ∀ {lhs rhs'}, rhs' ∈ b.alternatives lhs → (lhs, rhs') ∈ v.definitions ∨
    ∃ rhs ∈ s.alternatives lhs, Binarizes s.symbols (fun a => s.occursOnRight a) v rhs rhs'

namespace BinaryOf

variable (h : BinaryOf s b v)
include h

theorem isTerminal_eq : b.isTerminal = s.isTerminal := by
  unfold isTerminal
  rw [h.symbols]
  exact h.invariant.isTerminal_eq

theorem expands_of_reads (hreads : v.Reads s.symbols.size u f) (hw : b.Expands f w) :
    b.Expands u w := by
  induction hreads generalizing w with
  | nil => exact hw
  | @terminal a u f _ _ ih =>
    obtain ⟨x, y, rfl, hx, hy⟩ := hw.exists_append (u := [a])
    exact hx.append (ih hy)
  | expand hdef _ _ ih ih' =>
    obtain ⟨x, y, rfl, hx, hy⟩ := hw.exists_append
    exact .expand (h.definition hdef) (ih hx) (ih' hy)

theorem expands (hw : s.Expands u w) : b.Expands u w := by
  simp only [Expands, h.isTerminal_eq]
  apply hw.of_rules
  intro lhs rhs w hrule hrhs
  obtain ⟨rhs', hmem, hbinarizes⟩ := h.forth hrule
  refine .of_rule hmem ?_
  have hrhs' := h.expands_of_reads hbinarizes.reads (w := w)
  simp only [Expands, h.isTerminal_eq] at hrhs'
  exact hrhs' hrhs

theorem expands_reading (hs : s.Consistent) (hw : b.Expands u w)
    (hreads : v.Reads s.symbols.size u f) : s.Expands f w := by
  induction hw generalizing f with
  | nil =>
    cases hreads
    exact .nil
  | terminal ha _ ih =>
    cases hreads with
    | terminal _ hreads =>
      rw [h.isTerminal_eq] at ha
      exact .terminal ha (ih hreads)
    | expand hdef =>
      have hlhs := (h.invariant.lhs hdef).2
      rw [← h.symbols] at hlhs
      exact absurd ha (SymbolTable.not_isTerminal_of_isNonterminal hlhs)
  | expand hrule _ _ ih ih' =>
    rcases h.back hrule with hdef | ⟨rhs, hmem, hbinarizes⟩
    · cases hreads with
      | terminal hlt _ => exact absurd (h.invariant.lhs hdef).1 (Nat.not_le.2 hlt)
      | expand hdef' hrhs hreads =>
        rw [h.invariant.eq_of_mem hdef' hdef] at hrhs
        exact (ih hrhs).append (ih' hreads)
    · have hlt := hs.lhs_lt hmem
      cases hreads with
      | terminal _ hreads => exact .expand hmem (ih hbinarizes.reads) (ih' hreads)
      | expand hdef => exact absurd (h.invariant.lhs hdef).1 (Nat.not_le.2 hlt)

/-- The symbols that were there before derive the same words. -/
theorem expands_iff (hs : s.Consistent) (ha : a < s.symbols.size) :
    b.Expands [a] w ↔ s.Expands [a] w :=
  ⟨fun hw => h.expands_reading hs hw (.terminal ha .nil), h.expands⟩

theorem expands_start_iff (hs : s.Consistent) :
    b.Expands [b.start] w ↔ s.Expands [s.start] w := by
  rw [h.start]
  exact h.expands_iff hs hs.start_lt

end BinaryOf

theorem binarizeWith_eq_ok (h : g.binarizeWith names = .ok b) : ∃ t start ps entries v,
    g.separateStart names.startSuffix = .ok (t, start, ps) ∧
      Variables.binarizeEntries names.stem { symbols := t } ps.entries = .ok (entries, v) ∧
      b = ofProductions v.symbols start
        (v.definitions.toList.foldl (fun ps (lhs, rhs) => ps.add lhs rhs) (.ofList entries)) := by
  obtain ⟨⟨t, start, ps⟩, hseparate, h⟩ := bind_eq_ok_iff.1 h
  obtain ⟨⟨entries, v⟩, hentries, h⟩ := bind_eq_ok_iff.1 h
  refine ⟨t, start, ps, entries, v, hseparate, hentries, ?_⟩
  rw [← pure_eq_ok_iff.1 h]
  simp only [Array.foldl_toList]

theorem Separates.used_of_mem_entries (hsep : Separates g t start ps) :
    ∀ entry ∈ ps.entries, ∀ rhs ∈ entry.2, ∀ s ∈ rhs,
      s < t.size ∧ (ofProductions t start ps).occursOnRight s := by
  rintro ⟨lhs, alts⟩ hentry rhs hrhs s hs
  have hmem : rhs ∈ ps.alternatives lhs :=
    Productions.mem_alternatives_iff_exists_entry.2 ⟨alts, hentry, hrhs⟩
  exact ⟨hsep.productions_over.symbol_lt hmem s hs, occursOnRight_iff.2 ⟨lhs, rhs, hmem, hs⟩⟩

section BinarizeEntries

variable {entries : List (SymbolId × List Form)} (hsep : Separates g t start ps)
  (h : Variables.binarizeEntries names.stem { symbols := t } ps.entries = .ok (entries, v))
include hsep h

theorem Separates.invariant_binarizeEntries :
    v.Invariant t (fun a => (ofProductions t start ps).occursOnRight a) [] ∧
      List.Forall₂ (BinarizesEntry t (fun a => (ofProductions t start ps).occursOnRight a) v)
        ps.entries entries := by
  obtain ⟨hv, -, hforall⟩ := Variables.invariant_initial.binarizeEntries hsep.used_of_mem_entries h
  exact ⟨hv, hforall⟩

theorem Separates.binaryOf : BinaryOf (ofProductions t start ps)
    (ofProductions v.symbols start
      (v.definitions.toList.foldl (fun ps (lhs, rhs) => ps.add lhs rhs) (.ofList entries))) v := by
  obtain ⟨hv, hforall⟩ := hsep.invariant_binarizeEntries h
  refine ⟨hv, rfl, rfl, fun hdef => ?_, fun hrhs => ?_, fun hrhs' => ?_⟩
  · exact Productions.mem_alternatives_foldl_add_iff.2 (Or.inr (Array.mem_toList_iff.2 hdef))
  · obtain ⟨rhs', hmem, hbinarizes⟩ := exists_mem_ofList hforall hrhs
    exact ⟨rhs', Productions.mem_alternatives_foldl_add_iff.2 (Or.inl hmem), hbinarizes⟩
  · rcases Productions.mem_alternatives_foldl_add_iff.1 hrhs' with hrhs' | hdef
    · exact Or.inr (exists_of_mem_ofList hforall hrhs')
    · exact Or.inl (Array.mem_toList_iff.1 hdef)

end BinarizeEntries

/-- A binary grammar is consistent, and is that of a grammar with a start symbol of its own. -/
theorem exists_binaryOf (hg : g.Consistent) (h : g.binarizeWith names = .ok b) :
    b.Consistent ∧ ∃ t start ps v, g.separateStart names.startSuffix = .ok (t, start, ps) ∧
      Separates g t start ps ∧ BinaryOf (ofProductions t start ps) b v := by
  obtain ⟨t, start, ps, entries, v, hseparate, hentries, rfl⟩ := binarizeWith_eq_ok h
  have hsep := separates_of_separateStart hg hseparate
  obtain ⟨hv, hforall⟩ := hsep.invariant_binarizeEntries hentries
  refine ⟨?_, t, start, ps, v, hseparate, hsep, hsep.binaryOf hentries⟩
  refine consistent_ofProductions (hv.valid (hsep.valid hg.valid))
    (hv.ext.isNonterminal hsep.nonterminal)
    ((hv.over_ofList hforall hsep.productions_over).foldl_add ?_)
  intro lhs rhs hdef
  have hdef : (lhs, rhs) ∈ v.definitions := Array.mem_toList_iff.1 hdef
  exact ⟨(hv.lhs hdef).2, (hv.rhs hdef).lt_size⟩

/-- A binary grammar extends the symbol table by nonterminals. -/
theorem symbols_binarizeWith (hg : g.Consistent) (h : g.binarizeWith names = .ok b) :
    b.symbols.Extends g.symbols ∧ b.isTerminal = g.isTerminal := by
  obtain ⟨-, t, start, ps, v, -, hsep, hbin⟩ := exists_binaryOf hg h
  constructor
  · rw [hbin.symbols]
    exact hbin.invariant.ext.trans hsep.ext
  · exact hbin.isTerminal_eq.trans hsep.isTerminal_eq

theorem name?_eq_of_extends (hext : b.symbols.Extends g.symbols)
    (hterminal : b.isTerminal = g.isTerminal) (ha : b.isTerminal a) :
    g.symbols.name? a = b.symbols.name? a := by
  rw [hterminal] at ha
  exact (hext.name?_eq (SymbolTable.lt_size_of_isTerminal ha)).symm

end Grammar
end Chomsky
