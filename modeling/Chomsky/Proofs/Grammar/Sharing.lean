import Chomsky.Proofs.Grammar.NormalForm
import Chomsky.Proofs.Grammar.Roots
import Chomsky.Proofs.Obtainable
import Mathlib

/-! # Variables of a binary grammar are shared

A variable stands for a terminal or for a remainder of symbols that are no remainders themselves
(`Variables.Shared`). So its definition says what it stands for, and no other variable has the same
one (`Variables.Shared.eq_of_definition`). The symbols that a binary grammar adds are such variables
and at most one start symbol (`Grammar.added_binarizeWith`).
-/

namespace Chomsky

open Relation (ReflTransGen)

theorem SymbolTable.Extends.name_not_mem {t u : SymbolTable} {id : SymbolId} (h : u.Extends t)
    (hle : t.size ≤ id) (hlt : id < u.size) : u.name id ∉ t.names := by
  intro hmem
  obtain ⟨old, hold⟩ := List.mem_iff_getElem?.1 hmem
  rw [getElem?_names] at hold
  have hlt' := lt_size_of_name? hold
  have hname : u.name old = u.name id := by
    rw [h.name_eq hlt', name, hold, Option.getD_some]
  have heq := name_injective (Nat.lt_of_lt_of_le hlt' h.size_le) hlt hname
  exact absurd hle (Nat.not_le.2 (heq ▸ hlt'))

namespace Productions

variable {ps : Productions} {lhs : SymbolId} {rhs : Form} {rules : List (SymbolId × Form)}

theorem alternatives_foldl_add_of_not_mem (h : lhs ∉ rules.map Prod.fst) :
    (rules.foldl (fun ps (lhs, rhs) => ps.add lhs rhs) ps).alternatives lhs =
      ps.alternatives lhs := by
  induction rules generalizing ps with
  | nil => rfl
  | cons rule rules ih =>
    obtain ⟨hne, h⟩ := not_or.1 (mt List.mem_cons.2 h)
    rw [List.foldl_cons, ih h, alternatives_add, if_neg hne]

theorem alternatives_foldl_add_of_mem (hnodup : (rules.map Prod.fst).Nodup)
    (h : (lhs, rhs) ∈ rules) :
    (rules.foldl (fun ps (lhs, rhs) => ps.add lhs rhs) ps).alternatives lhs =
      ps.alternatives lhs ++ [rhs] := by
  induction rules generalizing ps with
  | nil => cases h
  | cons rule rules ih =>
    obtain ⟨hnew, hnodup⟩ := List.nodup_cons.1 hnodup
    rw [List.foldl_cons]
    rcases List.mem_cons.1 h with rfl | h
    · rw [alternatives_foldl_add_of_not_mem hnew, alternatives_add, if_pos rfl]
    · have hne : lhs ≠ rule.1 := by
        rintro rfl
        exact hnew (List.mem_map.2 ⟨_, h, rfl⟩)
      rw [ih hnodup h, alternatives_add, if_neg hne]

end Productions

namespace Variables

variable {t : SymbolTable} {used : SymbolId → Prop} {stem : String} {v v' : Variables}
  {id id' a b s : SymbolId} {form form' rhs rhs' rest : Form}

/-- A symbol of the table, or a variable for a terminal. -/
def Plain (t : SymbolTable) (v : Variables) (s : SymbolId) : Prop :=
  s < t.size ∨ ∃ a, (s, [a]) ∈ v.definitions

/-- Variables for terminals, of which equal ones share theirs, and for remainders of plain
symbols. -/
structure Shared (t : SymbolTable) (v : Variables) : Prop where
  lifted_iff : ∀ {a id}, v.lifted.get? a = some id ↔ (id, [a]) ∈ v.definitions
  plain : ∀ {form id}, v.folded? form = some id → ∀ s ∈ form, Plain t v s
  origin : ∀ {id}, t.size ≤ id → id < v.symbols.size →
    (∃ a, (id, [a]) ∈ v.definitions) ∨ ∃ form, v.folded? form = some id

theorem Plain.mono (h : ∀ {d}, d ∈ v.definitions → d ∈ v'.definitions) (hs : Plain t v s) :
    Plain t v' s := hs.imp_right (.imp fun _ => h)

namespace Shared

theorem initial : Shared t { symbols := t } where
  lifted_iff := ⟨nofun, fun h => absurd h (Array.not_mem_empty _)⟩
  plain h := nomatch h
  origin hle hlt := absurd hle (Nat.not_le.2 hlt)

theorem foldFresh (hs : Shared t v) (hform : ∀ s ∈ form, Plain t v s)
    (hnone : v.folded? form = none) (h : v.fresh stem = .ok (id, v')) :
    Shared t (v'.fold form id) := by
  obtain ⟨symbols, counter, hgrows, rfl⟩ := fresh_eq_ok h
  refine ⟨hs.lifted_iff, fun {form' id'} hfolded => ?_, fun {id'} hle hlt => ?_⟩
  · rw [folded?_fold] at hfolded
    split at hfolded
    · next heq => exact heq ▸ hform
    · exact hs.plain hfolded
  · rcases Nat.lt_succ_iff_lt_or_eq.1 (Nat.lt_of_lt_of_eq hlt hgrows.size_eq) with hlt | rfl
    · refine (hs.origin hle hlt).imp_right (.imp fun form' hform' => ?_)
      exact (extends_fold (v := { v with symbols, counter }) hnone).folded hform'
    · exact Or.inr ⟨form, by rw [folded?_fold, if_pos rfl, hgrows.id_eq]⟩

theorem definePair (hs : Shared t v) : Shared t (v.define id [a, b]) where
  lifted_iff {a' id'} := by
    rw [mem_define_iff]
    exact hs.lifted_iff.trans (or_iff_left fun heq => by cases heq).symm
  plain h s hmem := (hs.plain h s hmem).mono mem_define_of_mem
  origin hle hlt := (hs.origin hle hlt).imp_left (.imp fun _ => mem_define_of_mem)

theorem liftFresh (hs : Shared t v) (hnone : v.lifted.get? a = none)
    (h : v.fresh stem = .ok (id, v')) :
    Shared t ({ v' with lifted := v'.lifted.insert a id }.define id [a]) := by
  obtain ⟨symbols, counter, hgrows, rfl⟩ := fresh_eq_ok h
  refine ⟨fun {a' id'} => ?_, fun hfolded s hmem => ?_, fun {id'} hle hlt => ?_⟩
  · show (v.lifted.insert a id).get? a' = some id' ↔ _
    rw [OrderedMap.get?_insert, mem_define_iff]
    split
    · next heq =>
      have hnew : (id', [a']) ∉ v.definitions := by
        intro hmem
        rw [← heq, hs.lifted_iff.2 hmem] at hnone
        cases hnone
      refine Iff.trans ?_ (or_iff_right hnew).symm
      rw [heq, Option.some.injEq, Prod.mk.injEq]
      exact ⟨fun hid => ⟨hid.symm, rfl⟩, fun hid => hid.1.symm⟩
    · next hne =>
      refine hs.lifted_iff.trans (or_iff_left fun heq => hne ?_).symm
      cases heq
      rfl
  · exact (hs.plain hfolded s hmem).mono mem_define_of_mem
  · rcases Nat.lt_succ_iff_lt_or_eq.1 (Nat.lt_of_lt_of_eq hlt hgrows.size_eq) with hlt | rfl
    · exact (hs.origin hle hlt).imp_left (.imp fun _ => mem_define_of_mem)
    · exact Or.inl ⟨a, mem_define_iff.2 (Or.inr (by rw [hgrows.id_eq]))⟩

theorem forTerminal (hs : Shared t v) (h : v.forTerminal stem a = .ok (id, v')) :
    Shared t v' ∧ (id, [a]) ∈ v'.definitions := by
  unfold Variables.forTerminal at h
  split at h
  · next hlifted =>
    cases h
    exact ⟨hs, hs.lifted_iff.1 hlifted⟩
  · next hnone =>
    obtain ⟨⟨id, v₁⟩, hfresh, h⟩ := bind_eq_ok_iff.1 h
    obtain ⟨rfl, rfl⟩ := Prod.mk.inj (pure_eq_ok_iff.1 h)
    exact ⟨hs.liftFresh hnone hfresh, mem_define_iff.2 (Or.inr rfl)⟩

theorem forChain (hs : Shared t v) (hform : ∀ s ∈ a :: b :: rest, Plain t v s)
    (h : v.forChain stem a b rest = .ok (id, v')) : Shared t v' := by
  induction rest generalizing v a b id v' with
  | nil =>
    unfold Variables.forChain at h
    split at h
    · cases h
      exact hs
    · next hnone =>
      obtain ⟨⟨id, v₁⟩, hfresh, h⟩ := bind_eq_ok_iff.1 h
      obtain ⟨rfl, rfl⟩ := Prod.mk.inj (pure_eq_ok_iff.1 h)
      exact (hs.foldFresh hform hnone hfresh).definePair
  | cons c rest ih =>
    unfold Variables.forChain at h
    split at h
    · cases h
      exact hs
    · next hnone =>
      obtain ⟨⟨id, v₁⟩, hfresh, h⟩ := bind_eq_ok_iff.1 h
      obtain ⟨⟨tail, v₂⟩, hchain, h⟩ := bind_eq_ok_iff.1 h
      obtain ⟨rfl, rfl⟩ := Prod.mk.inj (pure_eq_ok_iff.1 h)
      have hsame := definitions_fresh hfresh
      refine (ih (hs.foldFresh hform hnone hfresh) (fun s hmem => ?_) hchain).definePair
      exact (hform s (List.mem_cons_of_mem a hmem)).mono fun hd => hsame ▸ hd

theorem liftAll (hs : Shared t v) (hrhs : ∀ s ∈ rhs, s < t.size)
    (h : v.liftAll stem rhs = .ok (form, v')) : Shared t v' ∧ ∀ s ∈ form, Plain t v' s := by
  induction rhs generalizing v form with
  | nil =>
    cases h
    exact ⟨hs, nofun⟩
  | cons s rhs ih =>
    rw [liftAll_cons] at h
    obtain ⟨⟨id, v₁⟩, hsymbol, h⟩ := bind_eq_ok_iff.1 h
    obtain ⟨⟨form, v₂⟩, hrest, h⟩ := bind_eq_ok_iff.1 h
    obtain ⟨rfl, rfl⟩ := Prod.mk.inj (pure_eq_ok_iff.1 h)
    obtain ⟨hlt, hrhs⟩ := List.forall_mem_cons.1 hrhs
    have hfirst : Shared t v₁ ∧ Plain t v₁ id := by
      split at hsymbol
      · exact (hs.forTerminal hsymbol).imp_right fun hmem => Or.inr ⟨s, hmem⟩
      · cases hsymbol
        exact ⟨hs, Or.inl hlt⟩
    obtain ⟨hs₂, hform⟩ := ih hfirst.1 hrhs hrest
    refine ⟨hs₂, List.forall_mem_cons.2 ⟨?_, hform⟩⟩
    exact hfirst.2.mono (rooted_liftAll hrest).mono

theorem binarize (hs : Shared t v) (hrhs : ∀ s ∈ rhs, s < t.size)
    (h : v.binarize stem rhs = .ok (rhs', v')) : Shared t v' := by
  unfold Variables.binarize at h
  split at h
  · cases h
    exact hs
  · obtain ⟨⟨form, v₁⟩, hlift, h⟩ := bind_eq_ok_iff.1 h
    obtain ⟨hs₁, hform⟩ := hs.liftAll hrhs hlift
    dsimp only at h
    split at h
    · obtain ⟨⟨tail, v₂⟩, hchain, h⟩ := bind_eq_ok_iff.1 h
      obtain ⟨rfl, rfl⟩ := Prod.mk.inj (pure_eq_ok_iff.1 h)
      exact hs₁.forChain (List.forall_mem_cons.1 hform).2 hchain
    · obtain ⟨rfl, rfl⟩ := Prod.mk.inj (pure_eq_ok_iff.1 h)
      exact hs₁

theorem binarizeAll {alts alts' : List Form} (hs : Shared t v)
    (halts : ∀ rhs ∈ alts, ∀ s ∈ rhs, s < t.size)
    (h : v.binarizeAll stem alts = .ok (alts', v')) : Shared t v' := by
  induction alts generalizing v alts' with
  | nil =>
    cases h
    exact hs
  | cons rhs alts ih =>
    obtain ⟨⟨rhs', v₁⟩, hbinarize, h⟩ := bind_eq_ok_iff.1 h
    obtain ⟨⟨alts', v₂⟩, hrest, h⟩ := bind_eq_ok_iff.1 h
    obtain ⟨rfl, rfl⟩ := Prod.mk.inj (pure_eq_ok_iff.1 h)
    obtain ⟨hrhs, halts⟩ := List.forall_mem_cons.1 halts
    exact ih (hs.binarize hrhs hbinarize) halts hrest

theorem binarizeEntries {entries entries' : List (SymbolId × List Form)} (hs : Shared t v)
    (hentries : ∀ entry ∈ entries, ∀ rhs ∈ entry.2, ∀ s ∈ rhs, s < t.size)
    (h : v.binarizeEntries stem entries = .ok (entries', v')) : Shared t v' := by
  induction entries generalizing v entries' with
  | nil =>
    cases h
    exact hs
  | cons entry entries ih =>
    obtain ⟨⟨alts', v₁⟩, halts, h⟩ := bind_eq_ok_iff.1 h
    obtain ⟨⟨entries', v₂⟩, hrest, h⟩ := bind_eq_ok_iff.1 h
    obtain ⟨rfl, rfl⟩ := Prod.mk.inj (pure_eq_ok_iff.1 h)
    obtain ⟨hlt, hentries⟩ := List.forall_mem_cons.1 hentries
    exact ih (hs.binarizeAll hlt halts) hentries hrest

end Shared

section Definitions

variable (hv : v.Invariant t used [])
include hv

theorem Invariant.exists_pair_of_folded (h : v.folded? form = some id) :
    ∃ x y, (id, [x, y]) ∈ v.definitions := by
  cases (hv.folded h).2.resolve_left List.not_mem_nil with
  | pair hdef => exact ⟨_, _, hdef⟩
  | chain _ hdef => exact ⟨_, _, hdef⟩

theorem Invariant.not_folded_of_plain (hs : Plain t v s) : v.folded? form ≠ some s := by
  intro hfolded
  obtain ⟨x, y, hdef⟩ := hv.exists_pair_of_folded hfolded
  rcases hs with hlt | ⟨a, hlift⟩
  · exact absurd (hv.lhs hdef).1 (Nat.not_le.2 hlt)
  · exact absurd (hv.eq_of_mem hlift hdef) (by simp)

/-- The definition of a variable for a remainder determines the remainder. -/
theorem Shared.form_eq (hs : Shared t v) (hid : v.folded? form = some id)
    (hid' : v.folded? form' = some id') (h : (id, rhs) ∈ v.definitions)
    (h' : (id', rhs) ∈ v.definitions) : form = form' := by
  induction form generalizing form' id id' rhs with
  | nil => cases (hv.folded hid).2.resolve_left List.not_mem_nil
  | cons a rest ih =>
    cases (hv.folded hid).2.resolve_left List.not_mem_nil with
    | pair hdef =>
      obtain rfl := hv.eq_of_mem h hdef
      cases (hv.folded hid').2.resolve_left List.not_mem_nil with
      | pair hdef' => exact hv.eq_of_mem h' hdef'
      | chain htail hdef' =>
        cases hv.eq_of_mem h' hdef'
        exact absurd htail (hv.not_folded_of_plain (hs.plain hid _ (by simp)))
    | chain htail hdef =>
      obtain rfl := hv.eq_of_mem h hdef
      cases (hv.folded hid').2.resolve_left List.not_mem_nil with
      | pair hdef' =>
        cases hv.eq_of_mem h' hdef'
        exact absurd htail (hv.not_folded_of_plain (hs.plain hid' _ (by simp)))
      | chain htail' hdef' =>
        cases hv.eq_of_mem h' hdef'
        obtain ⟨x, y, hpair⟩ := hv.exists_pair_of_folded htail
        rw [ih htail htail' hpair hpair]

theorem Shared.eq_of_definition (hs : Shared t v) (h : (id, rhs) ∈ v.definitions)
    (h' : (id', rhs) ∈ v.definitions) : id = id' := by
  have horigin : ∀ {id rhs}, (id, rhs) ∈ v.definitions →
      (∃ a, rhs = [a]) ∨ ∃ form, v.folded? form = some id := by
    intro id rhs h
    obtain ⟨hle, hid⟩ := hv.lhs h
    refine (hs.origin hle (SymbolTable.lt_size_of_isNonterminal hid)).imp_left ?_
    exact .imp fun _ => hv.eq_of_mem h
  have hlifted : ∀ {a}, rhs = [a] → id = id' := by
    rintro a rfl
    exact Option.some.inj ((hs.lifted_iff.2 h).symm.trans (hs.lifted_iff.2 h'))
  rcases horigin h with ⟨a, ha⟩ | ⟨form, hid⟩
  · exact hlifted ha
  · rcases horigin h' with ⟨a, ha⟩ | ⟨form', hid'⟩
    · exact hlifted ha
    · rw [hs.form_eq hv hid hid' h h', hid'] at hid
      exact (Option.some.inj hid).symm

theorem Shared.exists_definition (hs : Shared t v) (hle : t.size ≤ id)
    (hlt : id < v.symbols.size) : ∃ rhs, (id, rhs) ∈ v.definitions := by
  rcases hs.origin hle hlt with ⟨a, ha⟩ | ⟨form, hid⟩
  · exact ⟨_, ha⟩
  · obtain ⟨x, y, hdef⟩ := hv.exists_pair_of_folded hid
    exact ⟨_, hdef⟩

end Definitions

end Variables

namespace Grammar

variable {g s b : Grammar} {t : SymbolTable} {start id id' : SymbolId} {ps : Productions}
  {suffix : String} {names : NormalFormNames} {v : Variables} {rhs : Form}

/-- A symbol of the binary grammar that the grammar does not have. -/
structure Added (g b : Grammar) (id : SymbolId) : Prop where
  le : g.symbols.size ≤ id
  lt : id < b.symbols.size

/-- A symbol in use, defined as one terminal or two nonterminals. -/
structure IsVariable (b : Grammar) (id : SymbolId) : Prop where
  occursOnRight : b.occursOnRight id
  alternatives : ∃ rhs, b.alternatives id = [rhs] ∧ ((∃ a, rhs = [a] ∧ b.isTerminal a) ∨
    ∃ x y, rhs = [x, y] ∧ b.symbols.isNonterminal x ∧ b.symbols.isNonterminal y)

namespace Binarization

variable (h : Binarization s b v) (hdef : (id, rhs) ∈ v.definitions)
include h hdef

theorem occursOnRight : b.occursOnRight id := by
  obtain ⟨lhs, a, f, -, hmentions, -, -, hchain⟩ := h.rooted hdef
  have hlast : ∃ lhs, b.Mentions lhs id := by
    cases hchain with
    | refl => exact ⟨lhs, hmentions⟩
    | tail _ hleads => exact ⟨_, h.mentions_of_leads hleads⟩
  obtain ⟨lhs, rhs, hrhs, hmem⟩ := hlast
  exact occursOnRight_iff.2 ⟨lhs, rhs, hrhs, hmem⟩

theorem isVariable (halternatives : b.alternatives id = [rhs]) : b.IsVariable id := by
  refine ⟨h.occursOnRight hdef, rhs, halternatives, ?_⟩
  have hbinary := h.invariant.rhs hdef
  rw [← h.symbols] at hbinary
  rcases hbinary with ⟨a, rfl, ha, -⟩ | ⟨x, y, rfl, hx, hy⟩
  · exact Or.inl ⟨a, rfl, ha⟩
  · exact Or.inr ⟨x, y, rfl, hx.nonterminal, hy.nonterminal⟩

end Binarization

theorem eq_start_of_le (h : g.separateStart suffix = .ok (t, start, ps))
    (hle : g.symbols.size ≤ id) (hlt : id < t.size) : id = start := by
  rcases separateStart_eq_ok h with ⟨-, hfresh, -⟩ | ⟨-, rfl, -⟩
  · have hgrows := SymbolTable.grows_of_fresh hfresh
    rw [hgrows.id_eq]
    exact Nat.le_antisymm (Nat.lt_succ_iff.1 (Nat.lt_of_lt_of_eq hlt hgrows.size_eq)) hle
  · exact absurd hle (Nat.not_le.2 hlt)

/-- A variable has its definition as the only alternative. -/
theorem Separates.alternatives_eq {entries : List (SymbolId × List Form)}
    (hsep : Separates g t start ps)
    (h : Variables.binarizeEntries names.stem { symbols := t } ps.entries = .ok (entries, v))
    (hdef : (id, rhs) ∈ v.definitions) :
    Productions.alternatives (v.definitions.toList.foldl (fun ps (lhs, rhs) => ps.add lhs rhs)
      (.ofList entries)) id = [rhs] := by
  obtain ⟨hv, hforall⟩ := hsep.invariant_binarizeEntries h
  have hnil : Productions.alternatives (.ofList entries) id = [] := by
    refine List.eq_nil_iff_forall_not_mem.2 fun rhs' hrhs' => ?_
    obtain ⟨old, hold, -⟩ := Variables.exists_of_mem_ofList hforall hrhs'
    have hkey := hsep.productions_over.key id (Productions.mem_keys_of_mem_alternatives hold)
    exact absurd (hv.lhs hdef).1 (Nat.not_le.2 (SymbolTable.lt_size_of_isNonterminal hkey))
  rw [Productions.alternatives_foldl_add_of_mem hv.unique (Array.mem_toList_iff.2 hdef), hnil]
  rfl

section BinarizeWith

variable (hg : g.Consistent) (h : g.binarizeWith names = .ok b)
include hg h

theorem not_occursOnRight_start_binarizeWith : ¬b.occursOnRight b.start := by
  obtain ⟨-, t, start, ps, v, -, hsep, hbin⟩ := exists_binaryOf hg h
  refine hbin.not_occursOnRight_start (hsep.consistent hg) fun hoccurs => ?_
  obtain ⟨lhs, rhs, hrhs, hmem⟩ := occursOnRight_iff.1 hoccurs
  exact hsep.start_not_mem hrhs hmem

/-- The variables behind the symbols that a binary grammar adds. -/
theorem exists_sharedBinarization : ∃ s v, Binarization s b v ∧ v.Shared s.symbols ∧
    ∀ id, Added g b id → id ≠ b.start →
      ∃ rhs, (id, rhs) ∈ v.definitions ∧ b.alternatives id = [rhs] := by
  obtain ⟨t, start, ps, entries, v, hseparate, hentries, rfl⟩ := binarizeWith_eq_ok h
  have hsep := separates_of_separateStart hg hseparate
  have hshared : v.Shared t := by
    refine Variables.Shared.initial.binarizeEntries (fun entry hentry rhs hrhs s hs => ?_) hentries
    exact (hsep.used_of_mem_entries entry hentry rhs hrhs s hs).1
  refine ⟨_, v, hsep.binarization hentries, hshared, fun id hid hne => ?_⟩
  have hle : t.size ≤ id := Nat.not_lt.1 fun hlt => hne (eq_start_of_le hseparate hid.le hlt)
  have hv := (hsep.invariant_binarizeEntries hentries).1
  obtain ⟨rhs, hdef⟩ := hshared.exists_definition hv hle hid.lt
  exact ⟨rhs, hdef, hsep.alternatives_eq hentries hdef⟩

/-- No two variables are defined alike. -/
theorem eq_of_alternatives_eq (hid : Added g b id) (hid' : Added g b id') (hne : id ≠ b.start)
    (hne' : id' ≠ b.start) (heq : b.alternatives id = b.alternatives id') : id = id' := by
  obtain ⟨s, v, hbin, hshared, hdefined⟩ := exists_sharedBinarization hg h
  obtain ⟨rhs, hdef, halternatives⟩ := hdefined id hid hne
  obtain ⟨rhs', hdef', halternatives'⟩ := hdefined id' hid' hne'
  rw [halternatives, halternatives'] at heq
  obtain rfl := List.singleton_inj.1 heq
  exact hshared.eq_of_definition hbin.invariant hdef hdef'

end BinarizeWith

/-- The symbols that a binary grammar adds are nonterminals whose names are not in the table of the
grammar. They are a start symbol that no right-hand side has, and variables of which no two are
defined alike. -/
theorem added_binarizeWith (hg : g.Obtainable) (h : g.binarizeWith names = .ok b) :
    b.symbols.Extends g.symbols ∧
    (∀ id, Added g b id → b.symbols.isNonterminal id ∧ b.name id ∉ g.symbols.names ∧
      (id = b.start ∧ ¬b.occursOnRight id ∨ id ≠ b.start ∧ b.IsVariable id)) ∧
    ∀ id id', Added g b id → Added g b id' → id ≠ b.start → id' ≠ b.start →
      b.alternatives id = b.alternatives id' → id = id' := by
  have hc := hg.consistent
  obtain ⟨hext, hterminal⟩ := symbols_binarizeWith hc h
  refine ⟨hext, fun id hid => ⟨?_, hext.name_not_mem hid.le hid.lt, ?_⟩, fun id id' =>
    eq_of_alternatives_eq hc h⟩
  · refine SymbolTable.isNonterminal_of_lt hid.lt fun ha => ?_
    have ha : g.isTerminal id := hterminal ▸ ha
    exact absurd hid.le (Nat.not_le.2 (SymbolTable.lt_size_of_isTerminal ha))
  · by_cases hne : id = b.start
    · exact Or.inl ⟨hne, hne ▸ not_occursOnRight_start_binarizeWith hc h⟩
    · obtain ⟨s, v, hbin, -, hdefined⟩ := exists_sharedBinarization hc h
      obtain ⟨rhs, hdef, halternatives⟩ := hdefined id hid hne
      exact Or.inr ⟨hne, hbin.isVariable hdef halternatives⟩

/-- Two alternatives share the variables for a terminal and for a remainder, beside a symbol that
has the name of the first variable. -/
theorem render_binarize_shared :
    ((Grammar.parse "S -> a S b X0 | b S b X0\nX0 -> a").bind fun g =>
      g.binarize.map fun b => (g.symbols.size, b.symbols.size, b.start, b.render)) =
      .ok (4, 9, 4,
        "S' -> X1 X3 | X2 X3\nS -> X1 X3 | X2 X3\nX0 -> a\nX1 -> a\nX2 -> b\n" ++
        "X4 -> X2 X0\nX3 -> S X4\n") := by
  decide +kernel

theorem added_binarizeWith_shared : ∃ g b,
    Grammar.parse "S -> a S b X0 | b S b X0\nX0 -> a" = .ok g ∧ g.binarize = .ok b ∧
      b.start = 4 ∧ ¬b.occursOnRight 4 ∧ ∀ id, 4 < id → id < 9 →
        b.name id ∉ g.symbols.names ∧ b.IsVariable id ∧
          ∀ id', 4 < id' → id' < 9 → b.alternatives id = b.alternatives id' → id = id' := by
  obtain ⟨g, hg, h⟩ := bind_eq_ok_iff.1 render_binarize_shared
  obtain ⟨b, hb, heq⟩ := map_eq_ok_iff.1 h
  simp only [Prod.mk.injEq] at heq
  obtain ⟨hsize, hsize', hstart, -⟩ := heq
  obtain ⟨-, hspec, hunique⟩ := added_binarizeWith (.parse hg) hb
  rw [hstart] at hspec hunique
  have hadded : ∀ id, 4 ≤ id → id < 9 → Added g b id := fun id hle hlt =>
    ⟨hsize ▸ hle, hsize' ▸ hlt⟩
  refine ⟨g, b, hg, hb, hstart, ?_, fun id hlt hlt' => ?_⟩
  · obtain ⟨-, -, hcases⟩ := hspec 4 (hadded 4 (by decide) (by decide))
    exact (hcases.resolve_right fun h => h.1 rfl).2
  · have hne := Nat.ne_of_gt hlt
    have hid := hadded id (Nat.le_of_lt hlt) hlt'
    obtain ⟨-, hname, hcases⟩ := hspec id hid
    refine ⟨hname, (hcases.resolve_left fun h => hne h.1).2, fun id' hgt hgt' halternatives => ?_⟩
    exact hunique id id' hid (hadded id' (Nat.le_of_lt hgt) hgt') hne (Nat.ne_of_gt hgt)
      halternatives

end Grammar
end Chomsky
