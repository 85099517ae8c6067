import Chomsky.Grammar.Binary
import Chomsky.Proofs.Grammar.Consistent
import Chomsky.Proofs.Grammar.Expansion
import Mathlib.Data.List.Nodup

/-! # What the variables of a binary grammar stand for

Every variable has one definition, and the definitions read a variable as the terminal or the
remainder that it stands for (`Variables.Reads`). Variables only accumulate, so a binary
alternative keeps what it reads as (`Binarizes.mono`).
-/

namespace Chomsky

namespace Variables

variable {t u : SymbolTable} {used : SymbolId → Prop} {pending : List Form} {stem : String}
  {v v' v'' : Variables}
  {id a b s : SymbolId} {form form' rhs rhs' rest f : Form}

/-- The form reads as another one over the first `n` symbols if its variables are replaced by
their definitions. -/
abbrev Reads (v : Variables) (n : Nat) : Form → Form → Prop :=
  Expands (· < n) fun id rhs => (id, rhs) ∈ v.definitions

inductive Defined (v : Variables) (id : SymbolId) : Form → Prop
  | pair {a b : SymbolId} (h : (id, [a, b]) ∈ v.definitions) : Defined v id [a, b]
  | chain {a b c tail : SymbolId} {rest : Form} (htail : v.folded? (b :: c :: rest) = some tail)
      (h : (id, [a, tail]) ∈ v.definitions) : Defined v id (a :: b :: c :: rest)

structure Usable (t : SymbolTable) (used : SymbolId → Prop) (u : SymbolTable) (s : SymbolId) :
    Prop where
  nonterminal : u.isNonterminal s
  used : s < t.size → used s

/-- One terminal in use, or two nonterminals. -/
def IsBinary (t : SymbolTable) (used : SymbolId → Prop) (u : SymbolTable) (rhs : Form) : Prop :=
  (∃ a, rhs = [a] ∧ u.isTerminal a ∧ used a) ∨
    ∃ b c, rhs = [b, c] ∧ Usable t used u b ∧ Usable t used u c

/-- Later variables: what was there is still there, and definitions are for new symbols. -/
structure Extends (v' v : Variables) : Prop where
  symbols : v'.symbols.Extends v.symbols
  folded : ∀ {form id}, v.folded? form = some id → v'.folded? form = some id
  definitions : ∀ {d}, d ∈ v.definitions → d ∈ v'.definitions
  new : ∀ {d}, d ∈ v'.definitions → d ∈ v.definitions ∨ v.symbols.size ≤ d.1

theorem Extends.refl (v : Variables) : v.Extends v := ⟨.refl _, fun h => h, fun h => h, Or.inl⟩

theorem Extends.trans (h : v''.Extends v') (h' : v'.Extends v) : v''.Extends v where
  symbols := h.symbols.trans h'.symbols
  folded hf := h.folded (h'.folded hf)
  definitions hd := h.definitions (h'.definitions hd)
  new hd := by
    rcases h.new hd with hd | hd
    · exact h'.new hd
    · exact Or.inr (Nat.le_trans h'.symbols.size_le hd)

theorem Defined.mono (h : v'.Extends v) (hd : v.Defined id form) : v'.Defined id form := by
  cases hd with
  | pair hd => exact .pair (h.definitions hd)
  | chain htail hd => exact .chain (h.folded htail) (h.definitions hd)

theorem Usable.mono {u u' : SymbolTable} (h : u'.Extends u) (hs : Usable t used u s) :
    Usable t used u' s := ⟨h.isNonterminal hs.nonterminal, hs.used⟩

theorem usable_of_le (hs : t.size ≤ s) (h : u.isNonterminal s) : Usable t used u s :=
  ⟨h, fun hlt => absurd hs (Nat.not_le.2 hlt)⟩

theorem IsBinary.mono {u u' : SymbolTable} (h : u'.Extends u) (hrhs : IsBinary t used u rhs) :
    IsBinary t used u' rhs := by
  rcases hrhs with ⟨a, rfl, ha, hused⟩ | ⟨b, c, rfl, hb, hc⟩
  · exact Or.inl ⟨a, rfl, h.isTerminal ha, hused⟩
  · exact Or.inr ⟨b, c, rfl, hb.mono h, hc.mono h⟩

theorem IsBinary.lt_size (hrhs : IsBinary t used u rhs) : ∀ s ∈ rhs, s < u.size := by
  rcases hrhs with ⟨a, rfl, ha, -⟩ | ⟨b, c, rfl, hb, hc⟩
  · exact List.forall_mem_singleton.2 (SymbolTable.lt_size_of_isTerminal ha)
  · exact List.forall_mem_cons.2 ⟨SymbolTable.lt_size_of_isNonterminal hb.nonterminal,
      List.forall_mem_singleton.2 (SymbolTable.lt_size_of_isNonterminal hc.nonterminal)⟩

/-- What holds of the variables for forms over a table, but for the remainders that are still
without a definition. -/
structure Invariant (t : SymbolTable) (used : SymbolId → Prop) (pending : List Form)
    (v : Variables) : Prop where
  ext : v.symbols.Extends t
  isTerminal_eq : v.symbols.isTerminal = t.isTerminal
  valid : t.Valid → v.symbols.Valid
  lifted : ∀ {a id}, v.lifted.get? a = some id →
    Usable t used v.symbols id ∧ (id, [a]) ∈ v.definitions
  folded : ∀ {form id}, v.folded? form = some id →
    Usable t used v.symbols id ∧ (form ∈ pending ∨ v.Defined id form)
  lhs : ∀ {id rhs}, (id, rhs) ∈ v.definitions → t.size ≤ id ∧ v.symbols.isNonterminal id
  rhs : ∀ {id rhs}, (id, rhs) ∈ v.definitions → IsBinary t used v.symbols rhs
  unique : (v.definitions.toList.map Prod.fst).Nodup

theorem invariant_initial : Invariant t used [] { symbols := t } where
  ext := .refl t
  isTerminal_eq := rfl
  valid ht := ht
  lifted h := nomatch h
  folded h := nomatch h
  lhs h := nomatch h
  rhs h := nomatch h
  unique := List.nodup_nil

theorem Invariant.eq_of_mem (hv : v.Invariant t used pending) (h : (id, rhs) ∈ v.definitions)
    (h' : (id, rhs') ∈ v.definitions) : rhs = rhs' := by
  rw [← Array.mem_toList_iff] at h h'
  exact (Prod.mk.inj (List.inj_on_of_nodup_map hv.unique h h' rfl)).2

theorem fresh_eq_ok (h : v.fresh stem = .ok (id, v')) : ∃ symbols counter,
    v.symbols.Grows .nonterminal id symbols ∧ v' = { v with symbols, counter } := by
  obtain ⟨⟨id, symbols⟩, hentered, heq⟩ := map_eq_ok_iff.1 h
  obtain ⟨rfl, rfl⟩ := Prod.mk.inj heq
  exact ⟨symbols, _, SymbolTable.grows_of_freshNumbered hentered, rfl⟩

theorem Invariant.fresh (hv : v.Invariant t used pending) (h : v.fresh stem = .ok (id, v')) :
    v'.Invariant t used pending ∧ v'.Extends v ∧ v.symbols.size = id ∧
      v'.symbols.isNonterminal id ∧ v'.folded? = v.folded? ∧ ∀ d ∈ v'.definitions, d.1 < id := by
  obtain ⟨symbols, counter, hgrows, rfl⟩ := fresh_eq_ok h
  have hext : ({ v with symbols, counter } : Variables).Extends v :=
    ⟨hgrows.ext, fun h => h, fun h => h, Or.inl⟩
  refine ⟨?_, hext, hgrows.id_eq.symm, SymbolTable.isNonterminal_iff.2 hgrows.kind_eq, rfl, ?_⟩
  · constructor
    · exact hgrows.ext.trans hv.ext
    · exact hgrows.isTerminal_eq.trans hv.isTerminal_eq
    · exact fun ht => hgrows.valid (hv.valid ht)
    · exact fun h => (hv.lifted h).imp_left (·.mono hgrows.ext)
    · exact fun h => (hv.folded h).imp (·.mono hgrows.ext) (Or.imp_right (·.mono hext))
    · exact fun h => (hv.lhs h).imp_right hgrows.ext.isNonterminal
    · exact fun h => (hv.rhs h).mono hgrows.ext
    · exact hv.unique
  · intro d hd
    rw [hgrows.id_eq]
    exact SymbolTable.lt_size_of_isNonterminal (hv.lhs hd).2

theorem mem_define_iff {d : SymbolId × Form} :
    d ∈ (v.define id rhs).definitions ↔ d ∈ v.definitions ∨ d = (id, rhs) := Array.mem_push

theorem Extends.define (h : v'.Extends v) (hid : v.symbols.size ≤ id) :
    (v'.define id rhs).Extends v where
  symbols := h.symbols
  folded := h.folded
  definitions hd := mem_define_iff.2 (Or.inl (h.definitions hd))
  new hd := by
    rcases mem_define_iff.1 hd with hd | rfl
    · exact h.new hd
    · exact Or.inr hid

theorem Invariant.define (hv : v.Invariant t used pending) (hsize : t.size ≤ id)
    (hid : v.symbols.isNonterminal id) (hnew : ∀ d ∈ v.definitions, d.1 ≠ id)
    (hrhs : IsBinary t used v.symbols rhs) : (v.define id rhs).Invariant t used pending := by
  have hmono : ∀ {id' form}, v.Defined id' form → (v.define id rhs).Defined id' form := by
    intro id' form hd
    cases hd with
    | pair hd => exact .pair (mem_define_iff.2 (Or.inl hd))
    | chain htail hd => exact .chain htail (mem_define_iff.2 (Or.inl hd))
  constructor
  · exact hv.ext
  · exact hv.isTerminal_eq
  · exact hv.valid
  · exact fun h => (hv.lifted h).imp_right fun hd => mem_define_iff.2 (Or.inl hd)
  · exact fun h => (hv.folded h).imp_right (Or.imp_right hmono)
  · intro id' rhs' h
    rcases mem_define_iff.1 h with h | h
    · exact hv.lhs h
    · obtain ⟨rfl, -⟩ := Prod.mk.inj h
      exact ⟨hsize, hid⟩
  · intro id' rhs' h
    rcases mem_define_iff.1 h with h | h
    · exact hv.rhs h
    · obtain ⟨-, rfl⟩ := Prod.mk.inj h
      exact hrhs
  · show ((v.definitions.push (id, rhs)).toList.map Prod.fst).Nodup
    rw [Array.toList_push, List.map_append]
    refine List.nodup_append.2 ⟨hv.unique, List.nodup_singleton _, fun x hx y hy => ?_⟩
    obtain ⟨d, hd, rfl⟩ := List.mem_map.1 hx
    rw [List.mem_singleton.1 hy]
    exact hnew d ⟨hd⟩

theorem extends_lift (a id : SymbolId) :
    ({ v with lifted := v.lifted.insert a id } : Variables).Extends v :=
  ⟨.refl _, fun h => h, fun h => h, Or.inl⟩

theorem Invariant.lift (hv : v.Invariant t used pending) (hid : Usable t used v.symbols id)
    (hmem : (id, [a]) ∈ v.definitions) :
    ({ v with lifted := v.lifted.insert a id } : Variables).Invariant t used pending where
  ext := hv.ext
  isTerminal_eq := hv.isTerminal_eq
  valid := hv.valid
  lifted {a' id'} h := by
    rw [OrderedMap.get?_insert] at h
    split at h
    · next heq =>
      obtain rfl := Option.some.inj h
      subst heq
      exact ⟨hid, hmem⟩
    · exact hv.lifted h
  folded h := (hv.folded h).imp_right (Or.imp_right (·.mono (extends_lift a id)))
  lhs := hv.lhs
  rhs := hv.rhs
  unique := hv.unique

theorem Invariant.forTerminal (hv : v.Invariant t used pending) (ha : v.symbols.isTerminal a)
    (hused : used a) (h : v.forTerminal stem a = .ok (id, v')) :
    v'.Invariant t used pending ∧ v'.Extends v ∧ Usable t used v'.symbols id ∧
      (id, [a]) ∈ v'.definitions := by
  unfold Variables.forTerminal at h
  split at h
  · next hlifted =>
    cases h
    exact ⟨hv, .refl v, hv.lifted hlifted⟩
  · obtain ⟨⟨id, v₁⟩, hfresh, h⟩ := bind_eq_ok_iff.1 h
    obtain ⟨hv₁, hext₁, hsize, hid, -, hlt⟩ := hv.fresh hfresh
    obtain ⟨rfl, rfl⟩ := Prod.mk.inj (pure_eq_ok_iff.1 h)
    have hmem : (id, [a]) ∈ (v₁.define id [a]).definitions := mem_define_iff.2 (Or.inr rfl)
    have hle : t.size ≤ id := hsize ▸ hv.ext.size_le
    have hv₂ := hv₁.define hle hid (fun d hd => Nat.ne_of_lt (hlt d hd))
      (Or.inl ⟨a, rfl, hext₁.symbols.isTerminal ha, hused⟩)
    have hext₂ : (v₁.define id [a]).Extends v := hext₁.define (Nat.le_of_eq hsize)
    exact ⟨hv₂.lift (usable_of_le hle hid) hmem, (extends_lift a id).trans hext₂,
      usable_of_le hle hid, hmem⟩

theorem folded?_fold : (v.fold form id).folded? form' =
    if form' = form then some id else v.folded? form' := by
  unfold folded? fold
  rw [OrderedMap.get?_insert]
  simp only [Prod.mk.injEq]
  by_cases h : form' = form
  · simp [h]
  · simp [h]

theorem extends_fold (hnone : v.folded? form = none) : (v.fold form id).Extends v where
  symbols := .refl _
  folded {form' id'} h := by
    rw [folded?_fold]
    split
    · next heq =>
      rw [heq, hnone] at h
      cases h
    · exact h
  definitions hd := hd
  new hd := Or.inl hd

theorem Invariant.fold (hv : v.Invariant t used pending) (hnone : v.folded? form = none)
    (hid : Usable t used v.symbols id) : (v.fold form id).Invariant t used (form :: pending) where
  ext := hv.ext
  isTerminal_eq := hv.isTerminal_eq
  valid := hv.valid
  lifted := hv.lifted
  folded {form' id'} h := by
    rw [folded?_fold] at h
    split at h
    · next heq =>
      obtain rfl := Option.some.inj h
      exact ⟨hid, Or.inl (heq ▸ List.mem_cons_self)⟩
    · exact (hv.folded h).imp_right (Or.imp (List.mem_cons_of_mem _) (·.mono (extends_fold hnone)))
  lhs := hv.lhs
  rhs := hv.rhs
  unique := hv.unique

theorem Invariant.settle (hv : v.Invariant t used (form :: pending))
    (hid : v.folded? form = some id) (hdefined : v.Defined id form) :
    v.Invariant t used pending where
  ext := hv.ext
  isTerminal_eq := hv.isTerminal_eq
  valid := hv.valid
  lifted := hv.lifted
  folded {form' id'} h := by
    obtain ⟨hid', hcases⟩ := hv.folded h
    refine ⟨hid', ?_⟩
    rcases hcases with hmem | hdefined'
    · rcases List.mem_cons.1 hmem with rfl | hmem
      · obtain rfl := Option.some.inj (hid.symm.trans h)
        exact Or.inr hdefined
      · exact Or.inl hmem
    · exact Or.inr hdefined'
  lhs := hv.lhs
  rhs := hv.rhs
  unique := hv.unique

theorem Invariant.foldFresh (hv : v.Invariant t used pending)
    (hfresh : v.fresh stem = .ok (id, v')) (hnone : v.folded? form = none) :
    (v'.fold form id).Invariant t used (form :: pending) ∧ (v'.fold form id).Extends v := by
  obtain ⟨hv', hext, hsize, hid, hfolded, -⟩ := hv.fresh hfresh
  rw [← hfolded] at hnone
  have hle : t.size ≤ id := hsize ▸ hv.ext.size_le
  exact ⟨hv'.fold hnone (usable_of_le hle hid), (extends_fold hnone).trans hext⟩

theorem Invariant.defineFolded (hv : v.Invariant t used pending)
    (hfresh : v.fresh stem = .ok (id, v')) (hnone : v.folded? form = none)
    (hv' : v''.Invariant t used (form :: pending)) (hext' : v''.Extends (v'.fold form id))
    (hrhs : IsBinary t used v''.symbols rhs) (hdefined : (v''.define id rhs).Defined id form) :
    (v''.define id rhs).Invariant t used pending ∧ (v''.define id rhs).Extends v ∧
      (v''.define id rhs).folded? form = some id := by
  obtain ⟨-, hext, hsize, hid, -, hlt⟩ := hv.fresh hfresh
  have hle : t.size ≤ id := hsize ▸ hv.ext.size_le
  have hfolded : v''.folded? form = some id := hext'.folded (folded?_fold.trans (if_pos rfl))
  have hnew : ∀ d ∈ v''.definitions, d.1 ≠ id := by
    intro d hd
    rcases hext'.new hd with hd | hle
    · exact Nat.ne_of_lt (hlt d hd)
    · exact Nat.ne_of_gt (Nat.lt_of_lt_of_le (SymbolTable.lt_size_of_isNonterminal hid) hle)
  have hdefine := hv'.define hle (hext'.symbols.isNonterminal hid) hnew hrhs
  refine ⟨hdefine.settle hfolded hdefined, ?_, hfolded⟩
  exact (hext'.trans (hv.foldFresh hfresh hnone).2).define (Nat.le_of_eq hsize)

theorem Invariant.forChain (hv : v.Invariant t used pending) (ha : Usable t used v.symbols a)
    (hb : Usable t used v.symbols b) (hrest : ∀ s ∈ rest, Usable t used v.symbols s)
    (h : v.forChain stem a b rest = .ok (id, v')) : v'.Invariant t used pending ∧ v'.Extends v ∧
      v'.folded? (a :: b :: rest) = some id := by
  induction rest generalizing v a b id v' pending with
  | nil =>
    unfold Variables.forChain at h
    split at h
    · next hfolded =>
      cases h
      exact ⟨hv, .refl v, hfolded⟩
    · next hnone =>
      obtain ⟨⟨id, v₁⟩, hfresh, h⟩ := bind_eq_ok_iff.1 h
      obtain ⟨rfl, rfl⟩ := Prod.mk.inj (pure_eq_ok_iff.1 h)
      obtain ⟨hv₁, hext₁⟩ := hv.foldFresh hfresh hnone
      have hrhs : IsBinary t used (v₁.fold [a, b] id).symbols [a, b] :=
        Or.inr ⟨a, b, rfl, ha.mono hext₁.symbols, hb.mono hext₁.symbols⟩
      exact hv.defineFolded hfresh hnone hv₁ (.refl _) hrhs (.pair (mem_define_iff.2 (Or.inr rfl)))
  | cons c rest ih =>
    unfold Variables.forChain at h
    split at h
    · next hfolded =>
      cases h
      exact ⟨hv, .refl v, hfolded⟩
    · next hnone =>
      obtain ⟨⟨id, v₁⟩, hfresh, h⟩ := bind_eq_ok_iff.1 h
      obtain ⟨⟨tail, v₂⟩, hchain, h⟩ := bind_eq_ok_iff.1 h
      obtain ⟨rfl, rfl⟩ := Prod.mk.inj (pure_eq_ok_iff.1 h)
      obtain ⟨hc, hrest⟩ := List.forall_mem_cons.1 hrest
      obtain ⟨hv₁, hext₁⟩ := hv.foldFresh hfresh hnone
      obtain ⟨hv₂, hext₂, htail⟩ := ih hv₁ (hb.mono hext₁.symbols) (hc.mono hext₁.symbols)
        (fun s hs => (hrest s hs).mono hext₁.symbols) hchain
      have hrhs : IsBinary t used v₂.symbols [a, tail] :=
        Or.inr ⟨a, tail, rfl, ha.mono (hext₂.trans hext₁).symbols, (hv₂.folded htail).1⟩
      exact hv.defineFolded hfresh hnone hv₂ hext₂ hrhs
        (.chain htail (mem_define_iff.2 (Or.inr rfl)))

theorem Reads.mono {n : Nat} (h : v'.Extends v) (hreads : v.Reads n form f) :
    v'.Reads n form f := Expands.mono h.definitions hreads

theorem Invariant.reads_folded (hv : v.Invariant t used []) (hid : v.folded? form = some id)
    (hform : v.Reads t.size form f) : v.Reads t.size [id] f := by
  induction form generalizing id f with
  | nil =>
    cases ((hv.folded hid).2.resolve_left List.not_mem_nil)
  | cons a rest ih =>
    cases (hv.folded hid).2.resolve_left List.not_mem_nil with
    | pair h => exact .of_rule h hform
    | chain htail h =>
      obtain ⟨x, y, rfl, hx, hy⟩ := hform.exists_append (u := [a])
      exact .of_rule h (hx.append (ih htail hy))

/-- A symbol of a right-hand side as a nonterminal. -/
theorem Invariant.liftSymbol (hv : v.Invariant t used []) (hs : s < t.size) (hused : used s)
    (h : (if v.symbols.isTerminal s then v.forTerminal stem s else .ok (s, v)) = .ok (id, v')) :
    v'.Invariant t used [] ∧ v'.Extends v ∧ Usable t used v'.symbols id ∧
      v'.Reads t.size [id] [s] := by
  split at h
  · next hterminal =>
    obtain ⟨hv', hext, hid, hmem⟩ := hv.forTerminal hterminal hused h
    exact ⟨hv', hext, hid, .of_rule hmem (.terminal hs .nil)⟩
  · next hterminal =>
    cases h
    have hid := SymbolTable.isNonterminal_of_lt (Nat.lt_of_lt_of_le hs hv.ext.size_le) hterminal
    exact ⟨hv, .refl v, ⟨hid, fun _ => hused⟩, .terminal hs .nil⟩

theorem liftAll_cons : v.liftAll stem (s :: rhs) =
    (if v.symbols.isTerminal s then v.forTerminal stem s else .ok (s, v)) >>= fun (s, v) =>
      v.liftAll stem rhs >>= fun (rhs, v) => pure (s :: rhs, v) := by
  rw [Variables.liftAll]
  split <;> rfl

theorem Invariant.liftAll (hv : v.Invariant t used []) (hrhs : ∀ s ∈ rhs, s < t.size ∧ used s)
    (h : v.liftAll stem rhs = .ok (form, v')) : v'.Invariant t used [] ∧ v'.Extends v ∧
      (∀ s ∈ form, Usable t used v'.symbols s) ∧ form.length = rhs.length ∧
      v'.Reads t.size form rhs := by
  induction rhs generalizing v form with
  | nil =>
    cases h
    exact ⟨hv, .refl _, nofun, rfl, .nil⟩
  | cons s rhs ih =>
    rw [liftAll_cons] at h
    obtain ⟨⟨id, v₁⟩, hsymbol, h⟩ := bind_eq_ok_iff.1 h
    obtain ⟨⟨form, v₂⟩, hrest, h⟩ := bind_eq_ok_iff.1 h
    obtain ⟨rfl, rfl⟩ := Prod.mk.inj (pure_eq_ok_iff.1 h)
    obtain ⟨hs, hrhs⟩ := List.forall_mem_cons.1 hrhs
    obtain ⟨hv₁, hext₁, hid, hreads⟩ := hv.liftSymbol hs.1 hs.2 hsymbol
    obtain ⟨hv₂, hext₂, hform, hlength, hreads'⟩ := ih hv₁ hrhs hrest
    refine ⟨hv₂, hext₂.trans hext₁, ?_, ?_, (hreads.mono hext₂).append hreads'⟩
    · exact List.forall_mem_cons.2 ⟨hid.mono hext₂.symbols, hform⟩
    · rw [List.length_cons, List.length_cons, hlength]

/-- An alternative of the binary grammar for a right-hand side. -/
structure Binarizes (t : SymbolTable) (used : SymbolId → Prop) (v : Variables)
    (rhs rhs' : Form) : Prop where
  reads : v.Reads t.size rhs' rhs
  shape : rhs.length < 2 ∧ rhs' = rhs ∨
    ∃ b c, rhs' = [b, c] ∧ Usable t used v.symbols b ∧ Usable t used v.symbols c

theorem Binarizes.mono (h : v'.Extends v) (hrhs : Binarizes t used v rhs rhs') :
    Binarizes t used v' rhs rhs' where
  reads := hrhs.reads.mono h
  shape := by
    rcases hrhs.shape with hshort | ⟨b, c, rfl, hb, hc⟩
    · exact Or.inl hshort
    · exact Or.inr ⟨b, c, rfl, hb.mono h.symbols, hc.mono h.symbols⟩

theorem Binarizes.lt_size (hv : v.Invariant t used pending) (hrhs : Binarizes t used v rhs rhs')
    (hlt : ∀ s ∈ rhs, s < t.size) : ∀ s ∈ rhs', s < v.symbols.size := by
  rcases hrhs.shape with ⟨-, rfl⟩ | hshape
  · exact fun s hs => Nat.lt_of_lt_of_le (hlt s hs) hv.ext.size_le
  · exact IsBinary.lt_size (Or.inr hshape)

theorem Invariant.binarize (hv : v.Invariant t used []) (hrhs : ∀ s ∈ rhs, s < t.size ∧ used s)
    (h : v.binarize stem rhs = .ok (rhs', v')) :
    v'.Invariant t used [] ∧ v'.Extends v ∧ Binarizes t used v' rhs rhs' := by
  unfold Variables.binarize at h
  split at h
  · next hlength =>
    cases h
    exact ⟨hv, .refl v, .of_forall_terminal fun s hs => (hrhs s hs).1, Or.inl ⟨hlength, rfl⟩⟩
  · next hlength =>
    obtain ⟨⟨form, v₁⟩, hlift, h⟩ := bind_eq_ok_iff.1 h
    obtain ⟨hv₁, hext₁, hform, hlength', hreads⟩ := hv.liftAll hrhs hlift
    dsimp only at h
    split at h
    · next a b c rest =>
      obtain ⟨⟨tail, v₂⟩, hchain, h⟩ := bind_eq_ok_iff.1 h
      obtain ⟨rfl, rfl⟩ := Prod.mk.inj (pure_eq_ok_iff.1 h)
      obtain ⟨ha, hrest⟩ := List.forall_mem_cons.1 hform
      obtain ⟨hb, hrest⟩ := List.forall_mem_cons.1 hrest
      obtain ⟨hc, hrest⟩ := List.forall_mem_cons.1 hrest
      obtain ⟨hv₂, hext₂, htail⟩ := hv₁.forChain hb hc hrest hchain
      refine ⟨hv₂, hext₂.trans hext₁, ?_, Or.inr ⟨a, tail, rfl, ?_⟩⟩
      · obtain ⟨x, y, rfl, hx, hy⟩ := (hreads.mono hext₂).exists_append (u := [a])
        exact hx.append (hv₂.reads_folded htail hy)
      · exact ⟨ha.mono hext₂.symbols, (hv₂.folded htail).1⟩
    · next hshort =>
      obtain ⟨rfl, rfl⟩ := Prod.mk.inj (pure_eq_ok_iff.1 h)
      match form, hform, hlength', hshort with
      | [], _, hlength', _ =>
        exact absurd (hlength' ▸ Nat.zero_lt_two) hlength
      | [_], _, hlength', _ =>
        exact absurd (hlength' ▸ Nat.one_lt_two) hlength
      | [b, c], hform, _, _ =>
        obtain ⟨hb, hc⟩ := List.forall_mem_cons.1 hform
        exact ⟨hv₁, hext₁, hreads, Or.inr ⟨b, c, rfl, hb, hc c List.mem_cons_self⟩⟩
      | a :: b :: c :: rest, _, _, hshort => exact absurd rfl (hshort a b c rest)

theorem Invariant.binarizeAll {alts alts' : List Form} (hv : v.Invariant t used [])
    (halts : ∀ rhs ∈ alts, ∀ s ∈ rhs, s < t.size ∧ used s)
    (h : v.binarizeAll stem alts = .ok (alts', v')) :
    v'.Invariant t used [] ∧ v'.Extends v ∧ List.Forall₂ (Binarizes t used v') alts alts' := by
  induction alts generalizing v alts' with
  | nil =>
    cases h
    exact ⟨hv, .refl _, .nil⟩
  | cons rhs alts ih =>
    obtain ⟨⟨rhs', v₁⟩, hbinarize, h⟩ := bind_eq_ok_iff.1 h
    obtain ⟨⟨alts', v₂⟩, hrest, h⟩ := bind_eq_ok_iff.1 h
    obtain ⟨rfl, rfl⟩ := Prod.mk.inj (pure_eq_ok_iff.1 h)
    obtain ⟨hrhs, halts⟩ := List.forall_mem_cons.1 halts
    obtain ⟨hv₁, hext₁, hrhs'⟩ := hv.binarize hrhs hbinarize
    obtain ⟨hv₂, hext₂, halts'⟩ := ih hv₁ halts hrest
    exact ⟨hv₂, hext₂.trans hext₁, .cons (hrhs'.mono hext₂) halts'⟩

structure BinarizesEntry (t : SymbolTable) (used : SymbolId → Prop) (v : Variables)
    (entry entry' : SymbolId × List Form) : Prop where
  key : entry'.1 = entry.1
  forth : ∀ rhs ∈ entry.2, ∃ rhs' ∈ entry'.2, Binarizes t used v rhs rhs'
  back : ∀ rhs' ∈ entry'.2, ∃ rhs ∈ entry.2, Binarizes t used v rhs rhs'

theorem BinarizesEntry.mono {entry entry' : SymbolId × List Form} (h : v'.Extends v)
    (hentry : BinarizesEntry t used v entry entry') : BinarizesEntry t used v' entry entry' where
  key := hentry.key
  forth rhs hrhs := by
    obtain ⟨rhs', hrhs', hbinarizes⟩ := hentry.forth rhs hrhs
    exact ⟨rhs', hrhs', hbinarizes.mono h⟩
  back rhs' hrhs' := by
    obtain ⟨rhs, hrhs, hbinarizes⟩ := hentry.back rhs' hrhs'
    exact ⟨rhs, hrhs, hbinarizes.mono h⟩

theorem Invariant.binarizeEntries {entries entries' : List (SymbolId × List Form)}
    (hv : v.Invariant t used [])
    (hentries : ∀ entry ∈ entries, ∀ rhs ∈ entry.2, ∀ s ∈ rhs, s < t.size ∧ used s)
    (h : v.binarizeEntries stem entries = .ok (entries', v')) :
    v'.Invariant t used [] ∧ v'.Extends v ∧
      List.Forall₂ (BinarizesEntry t used v') entries entries' := by
  induction entries generalizing v entries' with
  | nil =>
    cases h
    exact ⟨hv, .refl _, .nil⟩
  | cons entry entries ih =>
    obtain ⟨lhs, alts⟩ := entry
    obtain ⟨⟨alts', v₁⟩, halts, h⟩ := bind_eq_ok_iff.1 h
    obtain ⟨⟨entries', v₂⟩, hrest, h⟩ := bind_eq_ok_iff.1 h
    obtain ⟨rfl, rfl⟩ := Prod.mk.inj (pure_eq_ok_iff.1 h)
    obtain ⟨hlt, hentries⟩ := List.forall_mem_cons.1 hentries
    obtain ⟨hv₁, hext₁, halts'⟩ := hv.binarizeAll hlt halts
    obtain ⟨hv₂, hext₂, hentries'⟩ := ih hv₁ hentries hrest
    obtain ⟨hforth, hback⟩ := exists_of_forall₂ halts'
    have hentry : BinarizesEntry t used v₁ (lhs, alts) (lhs, distinct alts') := by
      refine ⟨rfl, fun rhs hrhs => ?_, fun rhs' hrhs' => hback rhs' (mem_distinct.1 hrhs')⟩
      obtain ⟨rhs', hrhs', hbinarizes⟩ := hforth rhs hrhs
      exact ⟨rhs', mem_distinct.2 hrhs', hbinarizes⟩
    exact ⟨hv₂, hext₂.trans hext₁, .cons (hentry.mono hext₂) hentries'⟩

theorem map_fst_of_forall₂ {entries entries' : List (SymbolId × List Form)}
    (h : List.Forall₂ (BinarizesEntry t used v) entries entries') :
    entries'.map Prod.fst = entries.map Prod.fst := by
  induction h with
  | nil => rfl
  | cons hentry _ ih => rw [List.map_cons, List.map_cons, ih, hentry.key]

section Entries

variable {ps : Productions} {entries : List (SymbolId × List Form)}
  (h : List.Forall₂ (BinarizesEntry t used v) ps.entries entries)
include h

theorem entries_ofList_of_forall₂ : (OrderedMap.ofList entries).entries = entries := by
  apply OrderedMap.entries_ofList
  rw [map_fst_of_forall₂ h]
  exact ps.nodup_keys

theorem exists_mem_ofList (hrhs : rhs ∈ ps.alternatives s) :
    ∃ rhs' ∈ Productions.alternatives (.ofList entries) s, Binarizes t used v rhs rhs' := by
  obtain ⟨alts, hentry, halt⟩ := Productions.mem_alternatives_iff_exists_entry.1 hrhs
  obtain ⟨⟨s', alts'⟩, hentry', hbin⟩ := (exists_of_forall₂ h).1 _ hentry
  obtain rfl : s' = s := hbin.key
  obtain ⟨rhs', hrhs', hbinarizes⟩ := hbin.forth rhs halt
  rw [← entries_ofList_of_forall₂ h] at hentry'
  have hmem := Productions.mem_alternatives_iff_exists_entry.2 ⟨alts', hentry', hrhs'⟩
  exact ⟨rhs', hmem, hbinarizes⟩

theorem exists_of_mem_ofList (hrhs' : rhs' ∈ Productions.alternatives (.ofList entries) s) :
    ∃ rhs ∈ ps.alternatives s, Binarizes t used v rhs rhs' := by
  obtain ⟨alts', hentry', halt'⟩ := Productions.mem_alternatives_iff_exists_entry.1 hrhs'
  rw [entries_ofList_of_forall₂ h] at hentry'
  obtain ⟨⟨s', alts⟩, hentry, hbin⟩ := (exists_of_forall₂ h).2 _ hentry'
  obtain rfl : s = s' := hbin.key
  obtain ⟨rhs, hrhs, hbinarizes⟩ := hbin.back rhs' halt'
  have hmem := Productions.mem_alternatives_iff_exists_entry.2 ⟨alts, hentry, hrhs⟩
  exact ⟨rhs, hmem, hbinarizes⟩

theorem Invariant.over_ofList (hv : v.Invariant t used pending) (hps : ps.Over t) :
    Productions.Over (.ofList entries) v.symbols where
  key s hs := by
    rw [OrderedMap.keys, entries_ofList_of_forall₂ h, map_fst_of_forall₂ h] at hs
    exact hv.ext.isNonterminal (hps.key s hs)
  symbol_lt hrhs' := by
    obtain ⟨rhs, hrhs, hbinarizes⟩ := exists_of_mem_ofList h hrhs'
    exact hbinarizes.lt_size hv (hps.symbol_lt hrhs)

end Entries

end Variables
end Chomsky
