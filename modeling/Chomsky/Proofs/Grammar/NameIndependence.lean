import Chomsky.Grammar.Text
import Chomsky.Proofs.Grammar.NewNames
import Chomsky.Proofs.Grammar.NormalForm
import Mathlib

/-! # The names of new symbols have no influence

Making a grammar binary asks the symbol table for new names, and gets the next number whatever they
are. So two runs that differ in the names stay alike (`Variables.Alike`), and their results have the
same structure (`Grammar.sameStructure_normalizeWith`).
-/

namespace Chomsky

namespace SymbolTable

variable {t u : SymbolTable} {kind : SymbolKind} {id : SymbolId}

theorem Grows.kinds_eq (h : t.Grows kind id u) : u.kinds = t.kinds ++ [kind] := by
  obtain ⟨added, hadded⟩ := h.ext
  have hlength : added.length = 1 := by
    have hsize := h.size_eq
    rw [← length_entries, ← hadded, List.length_append, length_entries] at hsize
    exact Nat.add_left_cancel hsize
  obtain ⟨entry, rfl⟩ := List.length_eq_one_iff.1 hlength
  have hkind : entry.2 = kind := by
    have hlast := h.kind_eq
    rw [kind?, ← OrderedMap.getElem?_entries, ← hadded, h.id_eq, ← length_entries,
      List.getElem?_concat_length] at hlast
    exact Option.some.inj hlast
  rw [kinds, OrderedMap.values, ← hadded, List.map_append, ← hkind]
  rfl

theorem size_eq_of_kinds (h : t.kinds = u.kinds) : t.size = u.size := by
  rw [← length_kinds, h, length_kinds]

theorem isTerminal_eq_of_kinds (h : t.kinds = u.kinds) : t.isTerminal = u.isTerminal := by
  funext id
  rw [isTerminal, isTerminal, ← getElem?_kinds, ← getElem?_kinds, h]

theorem isNonterminal_eq_of_kinds (h : t.kinds = u.kinds) : t.isNonterminal = u.isNonterminal := by
  funext id
  rw [isNonterminal, isNonterminal, ← getElem?_kinds, ← getElem?_kinds, h]

theorem Grows.eq_of_kinds {t' u' : SymbolTable} {id' : SymbolId} (ht : t.kinds = t'.kinds)
    (h : t.Grows kind id u) (h' : t'.Grows kind id' u') : id = id' ∧ u.kinds = u'.kinds := by
  rw [h.id_eq, h'.id_eq, h.kinds_eq, h'.kinds_eq, ht]
  exact ⟨size_eq_of_kinds ht, rfl⟩

end SymbolTable

namespace Variables

variable {α β : Type} {stem stem' : String} {v v' : Variables} {id a b : SymbolId}
  {form rhs rest : Form}

/-- Variables that agree but for names. -/
structure Alike (v v' : Variables) : Prop where
  kinds : v.symbols.kinds = v'.symbols.kinds
  lifted : v.lifted = v'.lifted
  folded : v.folded = v'.folded
  definitions : v.definitions = v'.definitions

/-- If both runs succeed, they have one result, and the variables after them are alike. -/
def Lockstep (x x' : Except LanguageError (α × Variables)) : Prop :=
  ∀ r r' w w', x = .ok (r, w) → x' = .ok (r', w') → r = r' ∧ Alike w w'

theorem Lockstep.bind {x x' : Except LanguageError (α × Variables)}
    {f f' : α × Variables → Except LanguageError (β × Variables)} (hx : Lockstep x x')
    (hf : ∀ r w w', Alike w w' → Lockstep (f (r, w)) (f' (r, w'))) :
    Lockstep (x >>= f) (x' >>= f') := by
  intro s s' u u' h h'
  obtain ⟨⟨r, w⟩, hr, h⟩ := bind_eq_ok_iff.1 h
  obtain ⟨⟨r', w'⟩, hr', h'⟩ := bind_eq_ok_iff.1 h'
  obtain ⟨rfl, hw⟩ := hx r r' w w' hr hr'
  exact hf r w w' hw s s' u u' h h'

namespace Alike

variable (h : Alike v v')
include h

theorem ok (r : α) : Lockstep (.ok (r, v)) (.ok (r, v')) := by
  intro _ _ _ _ hr hr'
  cases hr
  cases hr'
  exact ⟨rfl, h⟩

theorem define : Alike (v.define id rhs) (v'.define id rhs) :=
  ⟨h.kinds, h.lifted, h.folded, congrArg (·.push (id, rhs)) h.definitions⟩

theorem fold : Alike (v.fold form id) (v'.fold form id) :=
  ⟨h.kinds, h.lifted, congrArg (·.insert (form.length, form) id) h.folded, h.definitions⟩

theorem lift : Alike { v with lifted := v.lifted.insert a id }
    { v' with lifted := v'.lifted.insert a id } :=
  ⟨h.kinds, congrArg (·.insert a id) h.lifted, h.folded, h.definitions⟩

theorem folded?_eq (form : Form) : v.folded? form = v'.folded? form := by
  rw [folded?, folded?, h.folded]

/-- A new variable has the same number in both runs. -/
theorem fresh : Lockstep (v.fresh stem) (v'.fresh stem') := by
  intro id id' w w' hfresh hfresh'
  obtain ⟨symbols, counter, hgrows, rfl⟩ := fresh_eq_ok hfresh
  obtain ⟨symbols', counter', hgrows', rfl⟩ := fresh_eq_ok hfresh'
  obtain ⟨rfl, hkinds⟩ := hgrows.eq_of_kinds h.kinds hgrows'
  exact ⟨rfl, hkinds, h.lifted, h.folded, h.definitions⟩

theorem forTerminal : Lockstep (v.forTerminal stem a) (v'.forTerminal stem' a) := by
  unfold Variables.forTerminal
  rw [h.lifted]
  cases v'.lifted.get? a with
  | some id => exact h.ok id
  | none => exact h.fresh.bind fun id w w' hw => hw.lift.define.ok id

theorem forChain : Lockstep (v.forChain stem a b rest) (v'.forChain stem' a b rest) := by
  induction rest generalizing v v' a b with
  | nil =>
    unfold Variables.forChain
    rw [h.folded?_eq]
    cases v'.folded? [a, b] with
    | some id => exact h.ok id
    | none => exact h.fresh.bind fun id w w' hw => hw.fold.define.ok id
  | cons c rest ih =>
    unfold Variables.forChain
    rw [h.folded?_eq]
    cases v'.folded? (a :: b :: c :: rest) with
    | some id => exact h.ok id
    | none =>
      refine h.fresh.bind fun id w w' hw => ?_
      exact (ih hw.fold).bind fun tail u u' hu => hu.define.ok id

theorem liftAll : Lockstep (v.liftAll stem rhs) (v'.liftAll stem' rhs) := by
  induction rhs generalizing v v' with
  | nil => exact h.ok []
  | cons s rhs ih =>
    rw [liftAll_cons, liftAll_cons, SymbolTable.isTerminal_eq_of_kinds h.kinds]
    have hsymbol : Lockstep
        (if v'.symbols.isTerminal s then v.forTerminal stem s else .ok (s, v))
        (if v'.symbols.isTerminal s then v'.forTerminal stem' s else .ok (s, v')) := by
      split
      · exact h.forTerminal
      · exact h.ok s
    exact hsymbol.bind fun s w w' hw => (ih hw).bind fun rhs u u' hu => hu.ok (s :: rhs)

theorem binarize : Lockstep (v.binarize stem rhs) (v'.binarize stem' rhs) := by
  unfold Variables.binarize
  split
  · exact h.ok rhs
  · refine h.liftAll.bind fun lifted w w' hw => ?_
    match lifted with
    | [] => exact hw.ok []
    | [a] => exact hw.ok [a]
    | [a, b] => exact hw.ok [a, b]
    | a :: b :: c :: rest => exact hw.forChain.bind fun tail u u' hu => hu.ok [a, tail]

theorem binarizeAll {alts : List Form} :
    Lockstep (v.binarizeAll stem alts) (v'.binarizeAll stem' alts) := by
  induction alts generalizing v v' with
  | nil => exact h.ok []
  | cons rhs alts ih =>
    refine h.binarize.bind fun rhs w w' hw => ?_
    exact (ih hw).bind fun alts u u' hu => hu.ok (rhs :: alts)

theorem binarizeEntries {entries : List (SymbolId × List Form)} :
    Lockstep (v.binarizeEntries stem entries) (v'.binarizeEntries stem' entries) := by
  induction entries generalizing v v' with
  | nil => exact h.ok []
  | cons entry entries ih =>
    refine h.binarizeAll.bind fun alts w w' hw => ?_
    exact (ih hw).bind fun entries u u' hu => hu.ok ((entry.1, distinct alts) :: entries)

end Alike

end Variables

namespace Grammar

variable {g b b' n n' : Grammar} {t t' : SymbolTable} {start start' id : SymbolId}
  {ps ps' : Productions} {suffix suffix' : String} {names names' : NormalFormNames}

/-- The same grammar but for names. -/
structure SameStructure (g g' : Grammar) : Prop where
  start : g.start = g'.start
  kinds : g.symbols.kinds = g'.symbols.kinds
  nonterminals : g.nonterminals = g'.nonterminals
  terminals : g.terminals = g'.terminals
  productions : g.productions = g'.productions

theorem sameStructure_ofProductions (h : t.kinds = t'.kinds) :
    SameStructure (ofProductions t start ps) (ofProductions t' start ps) where
  start := rfl
  kinds := h
  nonterminals := by
    rw [ofProductions, ofProductions, SymbolTable.isTerminal_eq_of_kinds h]
  terminals := by
    rw [ofProductions, ofProductions, SymbolTable.isTerminal_eq_of_kinds h]
  productions := rfl

theorem separateStart_eq (h : g.separateStart suffix = .ok (t, start, ps))
    (h' : g.separateStart suffix' = .ok (t', start', ps')) :
    t.kinds = t'.kinds ∧ start = start' ∧ ps = ps' := by
  rcases separateStart_eq_ok h with ⟨hoccurs, hfresh, rfl⟩ | ⟨hoccurs, rfl, rfl, rfl⟩
  · rcases separateStart_eq_ok h' with ⟨-, hfresh', rfl⟩ | ⟨hoccurs', -⟩
    · obtain ⟨rfl, hkinds⟩ :=
        (SymbolTable.grows_of_fresh hfresh).eq_of_kinds rfl (SymbolTable.grows_of_fresh hfresh')
      exact ⟨hkinds, rfl, rfl⟩
    · exact absurd hoccurs hoccurs'
  · rcases separateStart_eq_ok h' with ⟨hoccurs', -⟩ | ⟨-, rfl, rfl, rfl⟩
    · exact absurd hoccurs' hoccurs
    · exact ⟨rfl, rfl, rfl⟩

theorem sameStructure_binarizeWith (h : g.binarizeWith names = .ok b)
    (h' : g.binarizeWith names' = .ok b') : SameStructure b b' := by
  obtain ⟨t, start, ps, entries, v, hseparate, hentries, rfl⟩ := binarizeWith_eq_ok h
  obtain ⟨t', start', ps', entries', v', hseparate', hentries', rfl⟩ := binarizeWith_eq_ok h'
  obtain ⟨hkinds, rfl, rfl⟩ := separateStart_eq hseparate hseparate'
  have halike : Variables.Alike { symbols := t } { symbols := t' } := ⟨hkinds, rfl, rfl, rfl⟩
  obtain ⟨rfl, hv⟩ := halike.binarizeEntries _ _ _ _ hentries hentries'
  rw [hv.definitions]
  exact sameStructure_ofProductions hv.kinds

theorem extends_of_binarizeWith (h : g.binarizeWith names = .ok b) :
    b.symbols.Extends g.symbols := by
  obtain ⟨t, start, ps, entries, v, hseparate, hentries, rfl⟩ := binarizeWith_eq_ok h
  have ht : t.Extends g.symbols := by
    rcases separateStart_eq_ok hseparate with ⟨-, hfresh, -⟩ | ⟨-, rfl, -⟩
    · exact (SymbolTable.grows_of_fresh hfresh).ext
    · exact .refl _
  refine Variables.binarizeEntries_symbols (p := fun u => u.Extends g.symbols)
    (fun hfresh hv => ?_) ht hentries
  obtain ⟨symbols, counter, hgrows, rfl⟩ := Variables.fresh_eq_ok hfresh
  exact hgrows.ext.trans hv

theorem name_normalizeWith (h : g.normalizeWith names = .ok n) (hid : id < g.symbols.size) :
    n.name id = g.name id := by
  obtain ⟨u, hu, hn⟩ := normalizeWith_eq_ok h
  have hsymbols : u.symbols = g.eliminateEpsilon.symbols := symbols_eliminateUnits hu
  have hext := extends_of_binarizeWith hn
  rw [show u.trimmed.symbols = g.symbols from hsymbols] at hext
  exact hext.name_eq hid

/-- Two normal forms of a grammar are the same but for the names of the symbols that they add. -/
theorem sameStructure_normalizeWith (h : g.normalizeWith names = .ok n)
    (h' : g.normalizeWith names' = .ok n') :
    SameStructure n n' ∧
      ∀ id < g.symbols.size, n.name id = g.name id ∧ n'.name id = g.name id := by
  obtain ⟨u, hu, hn⟩ := normalizeWith_eq_ok h
  obtain ⟨u', hu', hn'⟩ := normalizeWith_eq_ok h'
  obtain rfl : u = u' := Except.ok.inj (hu.symm.trans hu')
  exact ⟨sameStructure_binarizeWith hn hn', fun id hid =>
    ⟨name_normalizeWith h hid, name_normalizeWith h' hid⟩⟩

/-- A symbol of the grammar has the name of the first variable, and variables are renamed. -/
theorem names_normalizeWith_renamed :
    ((Grammar.parse "S -> a S X0 | b\nX0 -> a").bind fun g =>
      g.normalize.bind fun n =>
        (g.normalizeWith { stem := "Y", startSuffix := "_0" }).map fun n' =>
          (n.symbols.names, n'.symbols.names)) =
      .ok (["S", "X0", "a", "b", "S'", "X1", "X2"], ["S", "X0", "a", "b", "S_0", "Y0", "Y1"]) := by
  decide +kernel

theorem sameStructure_normalizeWith_renamed : ∃ g n n',
    Grammar.parse "S -> a S X0 | b\nX0 -> a" = .ok g ∧ g.normalize = .ok n ∧
      g.normalizeWith { stem := "Y", startSuffix := "_0" } = .ok n' ∧
      n.symbols.names ≠ n'.symbols.names ∧ SameStructure n n' ∧
      ∀ id < g.symbols.size, n.name id = g.name id ∧ n'.name id = g.name id := by
  obtain ⟨g, hg, h⟩ := bind_eq_ok_iff.1 names_normalizeWith_renamed
  obtain ⟨n, hn, h⟩ := bind_eq_ok_iff.1 h
  obtain ⟨n', hn', heq⟩ := map_eq_ok_iff.1 h
  obtain ⟨hnames, hnames'⟩ := Prod.mk.inj heq
  refine ⟨g, n, n', hg, hn, hn', ?_, sameStructure_normalizeWith hn hn'⟩
  rw [hnames, hnames']
  decide

end Grammar
end Chomsky
