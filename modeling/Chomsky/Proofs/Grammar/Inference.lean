import Chomsky.Proofs.Data.Assembly
import Chomsky.Proofs.Grammar.Definition
import Chomsky.Proofs.Grammar.Naming
import Chomsky.Proofs.Symbol.Fresh
import Mathlib.Data.List.Nodup

/-! # Grammars of rules alone

Where nothing is declared, the table holds the names of the rules, each with the kind that the rules
suggest (`Infers`). Rules make such a grammar as soon as their names are valid (`exists_infers`).
-/

namespace Chomsky

theorem SymbolTable.Extends.lookup?_eq {t u : SymbolTable} {name : String} {id : SymbolId}
    (h : u.Extends t) (hid : t.lookup? name = some id) : u.lookup? name = some id := by
  rw [lookup?_eq_some_iff] at hid ⊢
  rw [h.name?_eq (lt_size_of_name? hid), hid]

theorem SymbolTable.Extends.map_lookup?_eq {t u : SymbolTable} {names : List String} {form : Form}
    (h : u.Extends t) (hnames : names.map t.lookup? = form.map some) :
    names.map u.lookup? = form.map some := by
  rw [← hnames]
  refine List.map_congr_left fun name hname => ?_
  have hmem : t.lookup? name ∈ form.map some := hnames ▸ List.mem_map_of_mem hname
  obtain ⟨id, -, hid⟩ := List.mem_map.1 hmem
  rw [← hid, h.lookup?_eq hid.symm]

namespace Productions

variable {lhs : SymbolId}

theorem keys_ofRules (rules : List (SymbolId × Form)) :
    (ofRules rules).keys = distinct (rules.map Prod.fst) := by
  rw [ofRules_eq, distinct_eq_unseen]
  exact OrderedMap.keys_foldl_upsert (fun rhs alts => alts.getD [] ++ [rhs]) ∅ rules

theorem get?_ofRules {rules : List (SymbolId × Form)} (h : lhs ∈ rules.map Prod.fst) :
    (ofRules rules).get? lhs = some (partsOf lhs rules) := by
  obtain ⟨⟨lhs, rhs⟩, hrule, rfl⟩ := List.mem_map.1 h
  have hne : partsOf lhs rules ≠ [] := List.ne_nil_of_mem (mem_partsOf.2 hrule)
  rw [ofRules_eq]
  refine (OrderedMap.get?_foldl_upsert (fun rhs alts => alts.getD [] ++ [rhs]) ∅ rules).trans ?_
  refine (OrderedMap.foldl_some (f := fun alts rhs => alts ++ [rhs]) hne).trans ?_
  simp [← List.flatMap_def]

theorem alternatives_ofRules (rules : List (SymbolId × Form)) :
    (ofRules rules).alternatives lhs = partsOf lhs rules := by
  by_cases hlhs : lhs ∈ rules.map Prod.fst
  · rw [alternatives, get?_ofRules hlhs, Option.getD_some]
  · have hnone : (ofRules rules).get? lhs = none := by
      refine Option.eq_none_iff_forall_ne_some.2 fun alts halts => hlhs ?_
      rw [← mem_distinct, ← keys_ofRules]
      exact OrderedMap.mem_keys_iff.2 ⟨alts, halts⟩
    rw [alternatives, hnone, partsOf_eq_nil hlhs, Option.getD_none]

theorem entries_ofRules (rules : List (SymbolId × Form)) : (ofRules rules).entries =
    (distinct (rules.map Prod.fst)).map fun lhs => (lhs, partsOf lhs rules) := by
  refine (List.map_inj_right fun _ _ => Option.some.inj).1 ?_
  rw [OrderedMap.map_some_entries, keys_ofRules, List.map_map]
  refine List.map_congr_left fun lhs hlhs => ?_
  rw [get?_ofRules (mem_distinct.1 hlhs)]
  rfl

theorem head?_keys_ofRules (rules : List (SymbolId × Form)) :
    (ofRules rules).keys.head? = rules.head?.map Prod.fst := by
  rw [keys_ofRules, distinct_eq_eraseDups]
  cases rules with
  | nil => rfl
  | cons rule rules => rw [List.map_cons, List.eraseDups_cons]; rfl

end Productions

namespace Vocabulary

variable {v : Vocabulary} {t u u' : SymbolTable} {name : String} {names names' : List String}
  {id : SymbolId} {form : Form} {line : String × List String} {rule : SymbolId × Form}
  {lines : List (String × List String)} {rules : List (SymbolId × Form)}

/-- Every name of the table has the kind that it would get if it were entered. -/
def Fits (v : Vocabulary) (t : SymbolTable) : Prop :=
  ∀ name kind, (name, kind) ∈ t.entries.entries → kind = v.kindOf name

/-- The table with names entered. -/
structure Enters (v : Vocabulary) (t : SymbolTable) (names : List String) (u : SymbolTable) :
    Prop where
  ext : u.Extends t
  fits : v.Fits t → v.Fits u
  mem_names : ∀ name, name ∈ u.names ↔ name ∈ t.names ∨ name ∈ names

theorem enters_nil (v : Vocabulary) (t : SymbolTable) : v.Enters t [] t :=
  ⟨.refl t, fun h => h, fun _ => by simp⟩

theorem Enters.trans (h : v.Enters t names u) (h' : v.Enters u names' u') :
    v.Enters t (names ++ names') u' where
  ext := h'.ext.trans h.ext
  fits ht := h'.fits (h.fits ht)
  mem_names name := by rw [h'.mem_names, h.mem_names, List.mem_append, or_assoc]

theorem enters_of_resolve (h : v.resolve t name = .ok (id, u)) :
    v.Enters t [name] u ∧ u.lookup? name = some id := by
  rcases resolve_cases h with ⟨rfl, hid⟩ | ⟨hnot, -, hintern⟩
  · have hmem := SymbolTable.mem_names_of_name? (SymbolTable.lookup?_eq_some_iff.1 hid)
    refine ⟨⟨.refl u, fun h => h, fun other => ?_⟩, hid⟩
    rw [List.mem_singleton, or_iff_left_of_imp]
    rintro rfl
    exact hmem
  · have hentries := (SymbolTable.exists_intern_iff.1 ⟨id, hintern⟩).2
    rw [if_neg hnot] at hentries
    obtain ⟨-, hname, -⟩ := SymbolTable.intern_eq_ok hintern
    refine ⟨⟨SymbolTable.extends_of_intern hintern, fun ht other kind hmem => ?_, fun other => ?_⟩,
      SymbolTable.lookup?_eq_some_iff.2 hname⟩
    · rw [hentries, List.mem_append, List.mem_singleton] at hmem
      rcases hmem with hmem | heq
      · exact ht other kind hmem
      · obtain ⟨rfl, rfl⟩ := Prod.mk.inj heq
        rfl
    · rw [SymbolTable.names_eq_of_entries hentries, List.mem_append]

theorem Reads.mono (h : u.Extends t) (hline : Reads t line rule) : Reads u line rule :=
  ⟨h.lookup?_eq hline.1, h.map_lookup?_eq hline.2⟩

theorem enters_of_resolveAll (h : v.resolveAll t names = .ok (form, u)) :
    v.Enters t names u ∧ names.map u.lookup? = form.map some := by
  induction names generalizing t form with
  | nil =>
    cases h
    exact ⟨enters_nil v _, rfl⟩
  | cons name names ih =>
    obtain ⟨⟨id, t₁⟩, hname, h⟩ := bind_eq_ok_iff.1 h
    obtain ⟨⟨ids, t₂⟩, hrest, h⟩ := bind_eq_ok_iff.1 h
    cases h
    obtain ⟨henters, hid⟩ := enters_of_resolve hname
    obtain ⟨henters', hids⟩ := ih hrest
    refine ⟨henters.trans henters', ?_⟩
    rw [List.map_cons, List.map_cons, henters'.ext.lookup?_eq hid, hids]

theorem enters_of_resolveNonterminal (h : v.resolveNonterminal t name = .ok (id, u)) :
    v.Enters t [name] u ∧ u.lookup? name = some id := by
  obtain ⟨⟨id', t₁⟩, hname, h⟩ := bind_eq_ok_iff.1 h
  dsimp only at h
  split at h
  · cases pure_eq_ok_iff.1 h
    exact enters_of_resolve hname
  · cases h

/-- The names of rules are entered, and the productions are read from the table. -/
theorem enters_of_resolveRules (h : v.resolveRules t lines = .ok (rules, u)) :
    v.Enters t (namesOf lines) u ∧
      List.Forall₂ (Reads u) lines rules := by
  induction lines generalizing t rules with
  | nil =>
    cases h
    exact ⟨enters_nil v _, .nil⟩
  | cons line lines ih =>
    obtain ⟨⟨lhs, t₁⟩, hlhs, h⟩ := bind_eq_ok_iff.1 h
    obtain ⟨⟨rhs, t₂⟩, hrhs, h⟩ := bind_eq_ok_iff.1 h
    obtain ⟨⟨rules, t₃⟩, hrest, h⟩ := bind_eq_ok_iff.1 h
    cases h
    obtain ⟨henters₁, hid⟩ := enters_of_resolveNonterminal hlhs
    obtain ⟨henters₂, hform⟩ := enters_of_resolveAll hrhs
    obtain ⟨henters₃, hrules⟩ := ih hrest
    have hline : Reads t₂ line (lhs, rhs) := ⟨henters₂.ext.lookup?_eq hid, hform⟩
    exact ⟨(henters₁.trans henters₂).trans henters₃, .cons (hline.mono henters₃.ext) hrules⟩

theorem eq_name_of_lookup? (h : t.lookup? name = some id) : name = t.name id := by
  rw [SymbolTable.name, SymbolTable.lookup?_eq_some_iff.1 h, Option.getD_some]

theorem eq_map_name_of_lookup? (h : names.map t.lookup? = form.map some) :
    names = form.map t.name := by
  induction names generalizing form with
  | nil =>
    obtain rfl := List.map_eq_nil_iff.1 h.symm
    rfl
  | cons name names ih =>
    cases form with
    | nil => cases h
    | cons id form =>
      obtain ⟨hname, hnames⟩ := List.cons.inj h
      rw [List.map_cons, ← eq_name_of_lookup? hname, ← ih hnames]

theorem eq_map_of_reads (h : List.Forall₂ (Reads t) lines rules) :
    lines = rules.map fun (lhs, rhs) => (t.name lhs, rhs.map t.name) := by
  induction h with
  | nil => rfl
  | cons hline _ ih =>
    rw [List.map_cons, ← ih]
    exact congrArg (· :: _) (Prod.ext (eq_name_of_lookup? hline.1) (eq_map_name_of_lookup? hline.2))

section Open

variable (hopen : ∀ kind, v.closed kind = false)
include hopen

theorem exists_resolve {t : SymbolTable} (hvalid : validName name) :
    ∃ p, v.resolve t name = .ok p := by
  unfold resolve
  cases hlookup : t.lookup? name with
  | some id => exact ⟨_, rfl⟩
  | none =>
    simp only [hopen, Bool.false_eq_true, if_false]
    have hnot := SymbolTable.not_mem_names_of_lookup? hlookup
    exact SymbolTable.exists_intern hvalid (mt SymbolTable.contains_iff.1 hnot)

theorem exists_resolveAll {t : SymbolTable} (hvalid : ∀ name ∈ names, validName name) :
    ∃ p, v.resolveAll t names = .ok p := by
  induction names generalizing t with
  | nil => exact ⟨_, rfl⟩
  | cons name names ih =>
    obtain ⟨hname, hvalid⟩ := List.forall_mem_cons.1 hvalid
    exact exists_bind_eq_ok (exists_resolve hopen hname) fun _ =>
      exists_bind_eq_ok (ih hvalid) fun _ => ⟨_, rfl⟩

theorem exists_resolveNonterminal (hfits : v.Fits t) (hvalid : validName name)
    (hleft : name ∈ v.lefts) : ∃ p, v.resolveNonterminal t name = .ok p := by
  obtain ⟨⟨id, u⟩, hresolve⟩ := exists_resolve (t := t) hopen hvalid
  obtain ⟨henters, hid⟩ := enters_of_resolve hresolve
  obtain ⟨kind, hkind⟩ :=
    SymbolTable.exists_kind? (SymbolTable.lt_size_of_name? (SymbolTable.lookup?_eq_some_iff.1 hid))
  have hfit := henters.fits hfits name kind ((SymbolTable.mem_entries_iff_kind? hid).2 hkind)
  rw [kindOf, if_pos hleft] at hfit
  subst hfit
  rw [resolveNonterminal, hresolve]
  exact ⟨_, if_pos (SymbolTable.isNonterminal_iff.2 hkind)⟩

theorem exists_resolveRules_of_fits (hfits : v.Fits t) (hlefts : ∀ line ∈ lines, line.1 ∈ v.lefts)
    (hvalid : ∀ line ∈ lines, ∀ name ∈ line.1 :: line.2, validName name) :
    ∃ p, v.resolveRules t lines = .ok p := by
  induction lines generalizing t with
  | nil => exact ⟨_, rfl⟩
  | cons line lines ih =>
    obtain ⟨hleft, hlefts⟩ := List.forall_mem_cons.1 hlefts
    obtain ⟨hline, hvalid⟩ := List.forall_mem_cons.1 hvalid
    obtain ⟨hlhs, hrhs⟩ := List.forall_mem_cons.1 hline
    obtain ⟨⟨lhs, t₁⟩, hresolve⟩ := exists_resolveNonterminal hopen hfits hlhs hleft
    obtain ⟨⟨rhs, t₂⟩, hresolve'⟩ := exists_resolveAll (t := t₁) hopen hrhs
    have hfits' := (enters_of_resolveAll hresolve').1.fits
      ((enters_of_resolveNonterminal hresolve).1.fits hfits)
    obtain ⟨⟨rules, t₃⟩, hrules⟩ := ih hfits' hlefts hvalid
    rw [resolveRules, hresolve, ok_bind]
    change ∃ p, (v.resolveAll t₁ line.2 >>= _) = _
    rw [hresolve', ok_bind]
    change ∃ p, (v.resolveRules t₂ lines >>= _) = _
    rw [hrules]
    exact ⟨_, rfl⟩

end Open

end Vocabulary

theorem mem_namesOf_of_mem_map_fst {lines : List (String × List String)} {name : String}
    (h : name ∈ lines.map Prod.fst) : name ∈ namesOf lines := by
  obtain ⟨line, hline, rfl⟩ := List.mem_map.1 h
  exact mem_namesOf.2 ⟨line, hline, List.mem_cons_self⟩

theorem distinct_map_fst_linesOf {entries : List (String × List (List String))}
    (halts : ∀ entry ∈ entries, entry.2 ≠ []) :
    distinct ((linesOf entries).map Prod.fst) = distinct (entries.map Prod.fst) := by
  rw [distinct_eq_unseen, distinct_eq_unseen]
  exact unseen_map_fst_flatMap halts

def suggestedKind (lines : List (String × List String)) (name : String) : SymbolKind :=
  if name ∈ lines.map Prod.fst then .nonterminal else .infer name

/-- A grammar whose table holds the names of rules, of the kinds that the rules suggest. -/
structure Grammar.Infers (g : Grammar) (lines : List (String × List String)) : Prop where
  consistent : g.Consistent
  productions : ∃ rules, g.productions = .ofRules rules ∧
    lines = rules.map fun (lhs, rhs) => (g.name lhs, g.spell rhs)
  start : lines.head?.map Prod.fst = some g.startName
  kind : ∀ name kind, g.kindNamed? name = some kind ↔
    name ∈ namesOf lines ∧ kind = suggestedKind lines name

theorem Grammar.mem_lines_iff_of_ofRules {g : Grammar} {rules : List (SymbolId × Form)}
    (h : g.productions = .ofRules rules) {line : String × List String} :
    line ∈ g.lines ↔ line ∈ rules.map fun (lhs, rhs) => (g.name lhs, g.spell rhs) := by
  have hrules : ∀ {lhs rhs}, rhs ∈ g.alternatives lhs ↔ (lhs, rhs) ∈ rules := by
    intro lhs rhs
    rw [alternatives, h, Productions.mem_alternatives_ofRules_iff]
  simp only [mem_lines_iff, hrules, List.mem_map, Prod.exists, Prod.ext_iff]

namespace Grammar.Infers

variable {g : Grammar} {lines lines' : List (String × List String)} {line : String × List String}
  {entries : List (String × List (List String))}

theorem mem_iff (h : g.Infers lines) : line ∈ lines ↔ line ∈ g.lines := by
  obtain ⟨rules, hproductions, rfl⟩ := h.productions
  exact (mem_lines_iff_of_ofRules hproductions).symm

theorem namedProductions_eq_distinct (h : g.Infers lines) : g.namedProductions =
    (distinct (lines.map Prod.fst)).map fun lhs => (lhs, partsOf lhs lines) := by
  obtain ⟨rules, hproductions, rfl⟩ := h.productions
  have hlt : ∀ rule ∈ rules, rule.1 < g.symbols.size := by
    rintro ⟨lhs, rhs⟩ hrule
    have hrhs : rhs ∈ g.alternatives lhs := by
      rw [alternatives, hproductions]
      exact Productions.mem_alternatives_ofRules_iff.2 hrule
    exact h.consistent.lhs_lt hrhs
  have hlt' : ∀ lhs ∈ rules.map Prod.fst, lhs < g.symbols.size := by
    intro lhs hlhs
    obtain ⟨rule, hrule, rfl⟩ := List.mem_map.1 hlhs
    exact hlt rule hrule
  have hkeys : distinct ((rules.map fun (lhs, rhs) => (g.name lhs, g.spell rhs)).map Prod.fst) =
      (distinct (rules.map Prod.fst)).map g.name := by
    refine Eq.trans ?_ (OrderedSet.toList_ofList_map fun lhs hlhs lhs' hlhs' =>
      SymbolTable.name_injective (hlt' lhs hlhs) (hlt' lhs' hlhs'))
    rw [List.map_map, List.map_map]
    rfl
  rw [namedProductions, hproductions, Productions.entries_ofRules, List.map_map, hkeys,
    List.map_map]
  refine List.map_congr_left fun lhs hlhs => Prod.ext rfl (Eq.symm ?_)
  refine partsOf_map fun rule hrule => ?_
  exact SymbolTable.name_injective (hlt rule hrule) (hlt' lhs (mem_distinct.1 hlhs))

theorem namedProductions_eq_flatten (h : g.Infers (linesOf entries))
    (halts : ∀ entry ∈ entries, entry.2 ≠ []) : g.namedProductions =
      (distinct (entries.map Prod.fst)).map fun lhs => (lhs, (partsOf lhs entries).flatten) := by
  rw [h.namedProductions_eq_distinct, distinct_map_fst_linesOf halts]
  exact List.map_congr_left fun lhs _ => Prod.ext rfl partsOf_flatMap

theorem namedProductions_eq (h : g.Infers (linesOf entries)) (hkeys : (entries.map Prod.fst).Nodup)
    (halts : ∀ entry ∈ entries, entry.2 ≠ []) : g.namedProductions = entries := by
  rw [h.namedProductions_eq_flatten halts, distinct, OrderedSet.toList_ofList_of_nodup hkeys,
    List.map_map]
  have hentry : ∀ entry ∈ entries, (entry.1, (partsOf entry.1 entries).flatten) = id entry :=
    fun entry hentry => by
      rw [partsOf_eq_singleton hkeys hentry, List.flatten_singleton]
      rfl
  exact (List.map_congr_left hentry).trans (List.map_id entries)

theorem alternatives_ne_nil (h : g.Infers lines) : ∀ entry ∈ g.namedProductions, entry.2 ≠ [] := by
  rw [h.namedProductions_eq_distinct]
  intro entry hentry
  obtain ⟨lhs, hlhs, rfl⟩ := List.mem_map.1 hentry
  obtain ⟨line, hline, rfl⟩ := List.mem_map.1 (mem_distinct.1 hlhs)
  exact List.ne_nil_of_mem (mem_partsOf.2 hline)

theorem head?_keys (h : g.Infers lines) : g.productions.keys.head? = some g.start := by
  obtain ⟨rules, hproductions, heq⟩ := h.productions
  have hstart := h.start
  rw [heq, List.head?_map, Option.map_map] at hstart
  obtain ⟨⟨lhs, rhs⟩, hrule, hname⟩ := Option.map_eq_some_iff.1 hstart
  rw [hproductions, Productions.head?_keys_ofRules, hrule]
  have hrhs : rhs ∈ g.alternatives lhs := by
    rw [alternatives, hproductions]
    exact Productions.mem_alternatives_ofRules_iff.2 (List.mem_of_head? hrule)
  exact congrArg some
    (SymbolTable.name_injective (h.consistent.lhs_lt hrhs) h.consistent.start_lt hname)

theorem mem_sets (h : g.Infers lines) (s : SymbolId) (hs : s < g.symbols.size) :
    s ∈ g.nonterminals ∨ s ∈ g.terminals := by
  obtain ⟨kind, hkind⟩ := SymbolTable.exists_kind? hs
  rw [← kindNamed?_name hs, h.kind] at hkind
  have hname : g.name s ∈ namesOf g.lines := by
    obtain ⟨line, hline, hname⟩ := mem_namesOf.1 hkind.1
    exact mem_namesOf.2 ⟨line, h.mem_iff.1 hline, hname⟩
  obtain ⟨s', hs', hname, hmem⟩ := h.consistent.exists_of_mem_namesOf hname
  exact SymbolTable.name_injective hs' hs hname ▸ hmem

theorem exists_mem_nonterminals_iff (h : g.Infers lines) {name : String} :
    (∃ s ∈ g.nonterminals, g.name s = name) ↔ g.kindNamed? name = some .nonterminal :=
  h.consistent.exists_mem_nonterminals_iff h.mem_sets

theorem exists_mem_terminals_iff (h : g.Infers lines) {name : String} :
    (∃ s ∈ g.terminals, g.name s = name) ↔ g.kindNamed? name = some .terminal :=
  h.consistent.exists_mem_terminals_iff h.mem_sets

theorem kindNamed?_eq {g' : Grammar} (h : g.Infers lines) (h' : g'.Infers lines')
    (hmem : ∀ line, line ∈ lines ↔ line ∈ lines') (name : String) :
    g.kindNamed? name = g'.kindNamed? name := by
  have hkind : suggestedKind lines name = suggestedKind lines' name := by
    simp only [suggestedKind, List.mem_map, hmem]
  refine Option.ext fun kind => ?_
  rw [h.kind, h'.kind, mem_namesOf, mem_namesOf, hkind]
  simp only [hmem]

end Grammar.Infers

namespace GrammarDefinition

variable {lines : List (String × List String)} {start : String} {t : SymbolTable} {g : Grammar}

abbrev ofLines (lines : List (String × List String)) : GrammarDefinition := { rules := lines }

theorem kindOf_ofLines (name : String) :
    (ofLines lines).vocabulary.kindOf name = suggestedKind lines name :=
  kindOf_vocabulary _ name

theorem declaredTable_ofLines : (ofLines lines).declaredTable start =
    SymbolTable.internAll ∅ (start :: lines.map Prod.fst) .nonterminal := rfl

theorem fits_declaredTable (hstart : start ∈ lines.map Prod.fst)
    (h : (ofLines lines).declaredTable start = .ok t) : (ofLines lines).vocabulary.Fits t ∧
      ∀ name, name ∈ t.names ↔ name ∈ lines.map Prod.fst := by
  have hentries : t.entries.entries =
      (unseen [] (start :: lines.map Prod.fst)).map fun name => (name, .nonterminal) :=
    (SymbolTable.internAll_eq_ok_iff.1 (declaredTable_ofLines ▸ h)).2
  have hunseen : ∀ name, name ∈ unseen [] (start :: lines.map Prod.fst) ↔
      name ∈ lines.map Prod.fst := by
    intro name
    rw [mem_unseen, List.mem_cons, and_iff_left List.not_mem_nil, or_iff_right_of_imp]
    rintro rfl
    exact hstart
  constructor
  · intro name kind hmem
    rw [hentries] at hmem
    obtain ⟨name, hname, heq⟩ := List.mem_map.1 hmem
    obtain ⟨rfl, rfl⟩ := Prod.mk.inj heq
    rw [kindOf_ofLines, suggestedKind, if_pos ((hunseen name).1 hname)]
  · intro name
    rw [← hunseen, SymbolTable.names, OrderedMap.keys, hentries, List.map_map]
    simp

theorem exists_declaredTable_ofLines (hvalid : ∀ name ∈ namesOf lines, validName name)
    (hstart : start ∈ lines.map Prod.fst) : ∃ t, (ofLines lines).declaredTable start = .ok t := by
  have hnodup : (unseen [] (start :: lines.map Prod.fst) ++ []).Nodup := by
    rw [List.append_nil]
    exact nodup_unseen
  obtain ⟨t, ht⟩ := SymbolTable.exists_lists hnodup
  refine ⟨t, SymbolTable.internAll_eq_ok_iff.2 ⟨fun name hname => ⟨hvalid name ?_, nofun⟩, ?_⟩⟩
  · rcases List.mem_cons.1 hname with rfl | hname
    · exact mem_namesOf_of_mem_map_fst hstart
    · exact mem_namesOf_of_mem_map_fst hname
  · rw [ht, List.map_nil, List.append_nil]
    rfl

theorem startName?_ofLines : (ofLines lines).startName? = lines.head?.map Prod.fst := rfl

theorem mem_map_fst_of_startName? (h : (ofLines lines).startName? = some start) :
    start ∈ lines.map Prod.fst := by
  obtain ⟨line, hline, rfl⟩ := Option.map_eq_some_iff.1 (startName?_ofLines ▸ h)
  exact List.mem_map_of_mem (List.mem_of_mem_head? hline)

theorem infers_of_build (h : (ofLines lines).build = .ok g) : g.Infers lines := by
  have hconsistent := consistent_of_build h
  unfold build at h
  split at h
  · cases h
  · next startName hstartName =>
    obtain ⟨t₁, h₁, h⟩ := bind_eq_ok_iff.1 h
    obtain ⟨⟨start, t₂⟩, h₂, h⟩ := bind_eq_ok_iff.1 h
    obtain ⟨⟨rules, t₃⟩, h₃, h⟩ := bind_eq_ok_iff.1 h
    obtain rfl := pure_eq_ok_iff.1 h
    have hleft := mem_map_fst_of_startName? hstartName
    obtain ⟨hfits, hnames⟩ := fits_declaredTable hleft h₁
    obtain ⟨henters₂, hstart⟩ := Vocabulary.enters_of_resolveNonterminal h₂
    obtain ⟨henters₃, hrules⟩ := Vocabulary.enters_of_resolveRules h₃
    have henters := henters₂.trans henters₃
    have hnames : ∀ name, name ∈ t₃.names ↔ name ∈ namesOf lines := by
      intro name
      rw [henters.mem_names, hnames, List.singleton_append, or_iff_right_of_imp]
      · rw [List.mem_cons, or_iff_right_of_imp]
        rintro rfl
        exact mem_namesOf_of_mem_map_fst hleft
      · exact fun h => List.mem_cons_of_mem _ (mem_namesOf_of_mem_map_fst h)
    refine ⟨hconsistent, ⟨rules, rfl, Vocabulary.eq_map_of_reads hrules⟩, ?_, fun name kind => ?_⟩
    · have hname := SymbolTable.lookup?_eq_some_iff.1 (henters₃.ext.lookup?_eq hstart)
      refine hstartName.trans ?_
      exact congrArg (fun x : Option String => some (x.getD "")) hname.symm
    · have hfits := henters.fits hfits
      rw [Grammar.kindNamed?, OrderedMap.get?_eq_some_iff, ← hnames]
      constructor
      · intro hmem
        exact ⟨List.mem_map_of_mem hmem, (hfits name kind hmem).trans (kindOf_ofLines name)⟩
      · rintro ⟨hname, rfl⟩
        obtain ⟨⟨name, kind⟩, hmem, rfl⟩ := List.mem_map.1 hname
        rw [← kindOf_ofLines, ← hfits name kind hmem]
        exact hmem

theorem exists_build_ofLines_eq_error (hleft : ∃ name ∈ lines.map Prod.fst, ¬validName name) :
    ∃ name ∈ lines.map Prod.fst, ¬validName name ∧
      (ofLines lines).build = .error (.invalidName name) := by
  obtain ⟨name, hname, hinvalid⟩ := hleft
  obtain ⟨line, rest, rfl⟩ : ∃ line rest, lines = line :: rest :=
    List.exists_cons_of_ne_nil fun hnil => by
      rw [hnil] at hname
      cases hname
  cases htable : (ofLines (line :: rest)).declaredTable line.1 with
  | ok t =>
    rw [declaredTable_ofLines] at htable
    have hadmits := (SymbolTable.internAll_eq_ok_iff.1 htable).1 name (List.mem_cons_of_mem _ hname)
    exact absurd hadmits.1 hinvalid
  | error cause =>
    have hbuild : (ofLines (line :: rest)).build = .error cause := by
      change ((ofLines (line :: rest)).declaredTable line.1 >>= _) = _
      rw [htable]
      rfl
    rw [declaredTable_ofLines] at htable
    obtain ⟨other, hother, ⟨hinvalid, rfl⟩ | ⟨⟨_, hkind, -⟩, -⟩⟩ :=
      SymbolTable.internAll_eq_error htable
    · refine ⟨other, ?_, hinvalid, hbuild⟩
      rcases List.mem_cons.1 hother with rfl | hother
      · exact List.mem_cons_self
      · exact hother
    · cases hkind

theorem exists_infers (hne : lines ≠ []) (hvalid : ∀ name ∈ namesOf lines, validName name) :
    ∃ g, (ofLines lines).build = .ok g ∧ g.Infers lines := by
  suffices h : ∃ g, (ofLines lines).build = .ok g by
    obtain ⟨g, hg⟩ := h
    exact ⟨g, hg, infers_of_build hg⟩
  obtain ⟨line, rest, rfl⟩ := List.exists_cons_of_ne_nil hne
  have hleft : line.1 ∈ (line :: rest).map Prod.fst := List.mem_cons_self
  have hvocabulary : ∀ {name}, name ∈ (line :: rest).map Prod.fst →
      name ∈ (ofLines (line :: rest)).vocabulary.lefts := OrderedSet.mem_ofList.2
  obtain ⟨t₁, h₁⟩ := exists_declaredTable_ofLines hvalid hleft
  obtain ⟨hfits, -⟩ := fits_declaredTable hleft h₁
  have hopen : ∀ kind, (ofLines (line :: rest)).vocabulary.closed kind = false := by
    rintro (_ | _) <;> rfl
  have hstart := hvalid _ (mem_namesOf_of_mem_map_fst hleft)
  obtain ⟨⟨start, t₂⟩, h₂⟩ :=
    Vocabulary.exists_resolveNonterminal hopen hfits hstart (hvocabulary hleft)
  have hfits := (Vocabulary.enters_of_resolveNonterminal h₂).1.fits hfits
  obtain ⟨⟨rules, t₃⟩, h₃⟩ := Vocabulary.exists_resolveRules_of_fits hopen hfits
    (fun line hline => hvocabulary (List.mem_map_of_mem hline))
    (fun line hline name hname => hvalid name (mem_namesOf.2 ⟨line, hline, hname⟩))
  change ∃ g, ((ofLines (line :: rest)).declaredTable line.1 >>= _) = _
  rw [h₁, ok_bind]
  change ∃ g, ((ofLines (line :: rest)).vocabulary.resolveNonterminal t₁ line.1 >>= _) = _
  rw [h₂, ok_bind]
  change ∃ g, ((ofLines (line :: rest)).vocabulary.resolveRules t₂ (line :: rest) >>= _) = _
  rw [h₃]
  exact ⟨_, rfl⟩

end GrammarDefinition
end Chomsky
