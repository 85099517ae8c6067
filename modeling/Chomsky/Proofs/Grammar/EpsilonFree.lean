import Chomsky.Grammar.EpsilonFree
import Chomsky.Proofs.Grammar.Saturation
import Mathlib.Data.List.Nodup

/-! # Leaving out nullable symbols

A form that expands to a word has a variant that does so without empty alternatives
(`exists_variant_expandsNonempty`). Afterwards only the start symbol may have the empty
alternative, and nonempty words do not need it (`EmptyOnlyAtStart`).
-/

namespace Chomsky

variable {nullable : OrderedSet SymbolId} {s : SymbolId} {alts : List Form} {rhs v : Form}

theorem mem_variants_cons_iff : v ∈ variants nullable (s :: rhs) ↔
    ∃ v' ∈ variants nullable rhs, v = s :: v' ∨ s ∈ nullable ∧ v = v' := by
  rw [variants]
  split
  · next hs =>
    simp only [mem_distinct, List.mem_flatMap, List.mem_cons, List.not_mem_nil, or_false, hs,
      true_and]
  · next hs =>
    simp only [List.mem_map, hs, false_and, or_false, eq_comm]

theorem cons_mem_variants (hv : v ∈ variants nullable rhs) :
    s :: v ∈ variants nullable (s :: rhs) :=
  mem_variants_cons_iff.2 ⟨v, hv, Or.inl rfl⟩

theorem mem_variants_cons_of_mem (hs : s ∈ nullable) (hv : v ∈ variants nullable rhs) :
    v ∈ variants nullable (s :: rhs) := mem_variants_cons_iff.2 ⟨v, hv, Or.inr ⟨hs, rfl⟩⟩

theorem mem_nullable_of_nil_mem_variants (h : [] ∈ variants nullable rhs) :
    ∀ s ∈ rhs, s ∈ nullable := by
  induction rhs with
  | nil => exact nofun
  | cons s rhs ih =>
    obtain ⟨v, hv, hcons | ⟨hs, rfl⟩⟩ := mem_variants_cons_iff.1 h
    · cases hcons
    · exact List.forall_mem_cons.2 ⟨hs, ih hv⟩

theorem mem_nonemptyVariants_iff : v ∈ nonemptyVariants nullable alts ↔
    v ≠ [] ∧ ∃ rhs ∈ alts, v ∈ variants nullable rhs := by
  rw [nonemptyVariants, mem_distinct, List.mem_filter, List.mem_flatMap, and_comm,
    Bool.not_eq_true', List.isEmpty_eq_false_iff]

namespace Grammar

variable {g : Grammar} {lhs : SymbolId} {u w : Form}

def nonemptyProductions (g : Grammar) : Productions :=
  (g.productions.mapValues fun _ alts => nonemptyVariants g.nullable alts).filter
    fun lhs alts => !alts.isEmpty || lhs == g.start

theorem productions_eliminateEpsilon : g.eliminateEpsilon.productions =
    if g.start ∈ g.nullable then g.nonemptyProductions.add g.start [] else g.nonemptyProductions :=
  rfl

theorem get?_nonemptyProductions_iff {kept : List Form} :
    g.nonemptyProductions.get? lhs = some kept ↔ ∃ alts, g.productions.get? lhs = some alts ∧
      nonemptyVariants g.nullable alts = kept ∧ (kept ≠ [] ∨ lhs = g.start) := by
  rw [nonemptyProductions, OrderedMap.get?_filter_eq_some_iff, OrderedMap.get?_mapValues,
    Option.map_eq_some_iff]
  simp only [Bool.or_eq_true, Bool.not_eq_true', List.isEmpty_eq_false_iff, beq_iff_eq,
    exists_and_right, ← and_assoc]

theorem mem_nonemptyProductions_iff : rhs ∈ g.nonemptyProductions.alternatives lhs ↔
    rhs ≠ [] ∧ ∃ alt ∈ g.alternatives lhs, rhs ∈ variants g.nullable alt := by
  simp only [Productions.mem_alternatives_iff, get?_nonemptyProductions_iff]
  constructor
  · rintro ⟨_, ⟨alts, hget, rfl, -⟩, hrhs⟩
    obtain ⟨hne, alt, halt, hrhs⟩ := mem_nonemptyVariants_iff.1 hrhs
    exact ⟨hne, alt, Productions.mem_alternatives_iff.2 ⟨alts, hget, halt⟩, hrhs⟩
  · rintro ⟨hne, alt, halt, hrhs⟩
    obtain ⟨alts, hget, halt⟩ := Productions.mem_alternatives_iff.1 halt
    have hrhs := mem_nonemptyVariants_iff.2 ⟨hne, alt, halt, hrhs⟩
    exact ⟨_, ⟨alts, hget, rfl, Or.inl (List.ne_nil_of_mem hrhs)⟩, hrhs⟩

/-- What the alternatives are when empty ones have been removed. -/
theorem mem_alternatives_eliminateEpsilon_iff : rhs ∈ g.eliminateEpsilon.alternatives lhs ↔
    rhs ≠ [] ∧ (∃ alt ∈ g.alternatives lhs, rhs ∈ variants g.nullable alt) ∨
      rhs = [] ∧ lhs = g.start ∧ g.start ∈ g.nullable := by
  rw [alternatives, productions_eliminateEpsilon]
  split
  · next hstart =>
    rw [Productions.mem_alternatives_add_iff, mem_nonemptyProductions_iff]
    simp only [hstart, and_true, and_comm (a := rhs = [])]
  · next hstart =>
    rw [mem_nonemptyProductions_iff]
    simp only [hstart, and_false, or_false]

theorem nodup_nonemptyProductions : (g.nonemptyProductions.alternatives lhs).Nodup := by
  refine Productions.nodup_alternatives fun alts hget => ?_
  obtain ⟨alts, -, rfl, -⟩ := get?_nonemptyProductions_iff.1 hget
  exact nodup_distinct

theorem nodup_alternatives_eliminateEpsilon : (g.eliminateEpsilon.alternatives lhs).Nodup := by
  rw [alternatives, productions_eliminateEpsilon]
  split
  · rw [Productions.alternatives_add]
    split
    · refine List.nodup_append.2 ⟨nodup_nonemptyProductions, List.nodup_singleton [], ?_⟩
      rintro rhs hrhs _ hnil rfl
      exact (mem_nonemptyProductions_iff.1 hrhs).1 (List.mem_singleton.1 hnil)
    · exact nodup_nonemptyProductions
  · exact nodup_nonemptyProductions

theorem mem_keys_nonemptyProductions_iff : lhs ∈ g.nonemptyProductions.keys ↔
    (∃ rhs, rhs ∈ g.nonemptyProductions.alternatives lhs) ∨
      lhs = g.start ∧ lhs ∈ g.productions.keys := by
  constructor
  · intro hlhs
    obtain ⟨kept, hget⟩ := OrderedMap.mem_keys_iff.1 hlhs
    obtain ⟨alts, halts, -, hne | hstart⟩ := get?_nonemptyProductions_iff.1 hget
    · obtain ⟨rhs, hrhs⟩ := List.exists_mem_of_ne_nil kept hne
      exact Or.inl ⟨rhs, Productions.mem_alternatives_iff.2 ⟨kept, hget, hrhs⟩⟩
    · exact Or.inr ⟨hstart, OrderedMap.mem_keys_iff.2 ⟨alts, halts⟩⟩
  · rintro (⟨rhs, hrhs⟩ | ⟨hstart, hkey⟩)
    · exact Productions.mem_keys_of_mem_alternatives hrhs
    · obtain ⟨alts, halts⟩ := OrderedMap.mem_keys_iff.1 hkey
      refine OrderedMap.mem_keys_iff.2 ⟨nonemptyVariants g.nullable alts, ?_⟩
      exact get?_nonemptyProductions_iff.2 ⟨alts, halts, rfl, Or.inr hstart⟩

theorem mem_keys_eliminateEpsilon_iff : lhs ∈ g.eliminateEpsilon.productions.keys ↔
    (∃ rhs, rhs ∈ g.eliminateEpsilon.alternatives lhs) ∨
      lhs = g.start ∧ lhs ∈ g.productions.keys := by
  rw [alternatives, productions_eliminateEpsilon]
  split
  · rw [Productions.mem_keys_add_iff, mem_keys_nonemptyProductions_iff]
    simp only [Productions.mem_alternatives_add_iff, exists_or, exists_and_left, exists_eq,
      and_true]
    exact or_right_comm
  · exact mem_keys_nonemptyProductions_iff

theorem Consistent.eliminateEpsilon (h : g.Consistent) : g.eliminateEpsilon.Consistent := by
  have hover : g.nonemptyProductions.Over g.symbols := by
    refine (h.productions_over.mapValues ?_).filter _
    intro lhs alts rhs hget hrhs s hs
    obtain ⟨-, alt, halt, hrhs⟩ := mem_nonemptyVariants_iff.1 hrhs
    exact ⟨lhs, alt, Productions.mem_alternatives_iff.2 ⟨alts, hget, halt⟩,
      (sublist_of_mem_variants hrhs).subset hs⟩
  apply consistent_ofProductions h.valid h.isNonterminal_start
  split
  · exact hover.add h.isNonterminal_start fun _ hs => absurd hs List.not_mem_nil
  · exact hover

/-- A variant expands to what the form expands to, by the productions before. -/
theorem expands_of_mem_variants (hv : v ∈ variants g.nullable u) (h : g.Expands v w) :
    g.Expands u w := by
  induction u generalizing v w with
  | nil =>
    obtain rfl := List.mem_singleton.1 hv
    exact h
  | cons s u ih =>
    obtain ⟨v', hv', rfl | ⟨hs, rfl⟩⟩ := mem_variants_cons_iff.1 hv
    · obtain ⟨x, y, rfl, hx, hy⟩ := h.exists_append (u := [s])
      exact hx.append (ih hv' hy)
    · exact (expands_nil_of_mem_nullable hs).append (ih hv' h)

theorem expands_of_eliminateEpsilon (h : g.eliminateEpsilon.Expands u w) : g.Expands u w := by
  apply h.of_rules
  intro lhs rhs w hrule hrhs
  rcases mem_alternatives_eliminateEpsilon_iff.1 hrule with ⟨-, alt, halt, hv⟩ | ⟨rfl, rfl, hstart⟩
  · exact .of_rule halt (expands_of_mem_variants hv hrhs)
  · rw [expands_nil_iff.1 hrhs]
    exact expands_nil_of_mem_nullable hstart

theorem exists_variant_expandsNonempty (h : g.Expands u w) :
    ∃ v ∈ variants g.nullable u, g.eliminateEpsilon.ExpandsNonempty v w := by
  induction h with
  | nil => exact ⟨[], List.mem_singleton.2 rfl, .nil⟩
  | @terminal a u w ha _ ih =>
    obtain ⟨v, hv, hexp⟩ := ih
    exact ⟨a :: v, cons_mem_variants hv, .terminal ha hexp⟩
  | @expand lhs rhs u x w hrule _ _ ih ih' =>
    obtain ⟨rhs', hrhs', hexp⟩ := ih
    obtain ⟨v, hv, hexp'⟩ := ih'
    by_cases hnil : rhs' = []
    · subst hnil
      rw [expands_nil_iff.1 hexp]
      have hlhs := nullable_closed hrule (mem_nullable_of_nil_mem_variants hrhs')
      exact ⟨v, mem_variants_cons_of_mem hlhs hv, hexp'⟩
    · have halt := mem_alternatives_eliminateEpsilon_iff.2 (Or.inl ⟨hnil, rhs, hrule, hrhs'⟩)
      exact ⟨lhs :: v, cons_mem_variants hv, .expand ⟨halt, hnil⟩ hexp hexp'⟩

/-- A symbol that expands to a nonempty word still does, without empty alternatives. -/
theorem expandsNonempty_eliminateEpsilon (h : g.Expands [s] w) (hw : w ≠ []) :
    g.eliminateEpsilon.ExpandsNonempty [s] w := by
  obtain ⟨v, hv, hexp⟩ := exists_variant_expandsNonempty h
  obtain ⟨v', hv', rfl | ⟨-, rfl⟩⟩ := mem_variants_cons_iff.1 hv
  · rwa [List.mem_singleton.1 hv'] at hexp
  · rw [List.mem_singleton.1 hv'] at hexp
    exact absurd (expands_nil_iff.1 hexp) hw

/-- A symbol expands to the same nonempty words without empty alternatives. -/
theorem expands_eliminateEpsilon_iff (hw : w ≠ []) :
    g.eliminateEpsilon.Expands [s] w ↔ g.Expands [s] w :=
  ⟨expands_of_eliminateEpsilon, fun h => (expandsNonempty_eliminateEpsilon h hw).expands⟩

theorem expands_start_eliminateEpsilon_iff :
    g.eliminateEpsilon.Expands [g.start] w ↔ g.Expands [g.start] w := by
  by_cases hw : w = []
  · subst hw
    refine ⟨expands_of_eliminateEpsilon, fun h => ?_⟩
    have hstart := mem_nullable_iff.2 h
    exact .of_rule (mem_alternatives_eliminateEpsilon_iff.2 (Or.inr ⟨rfl, rfl, hstart⟩)) .nil
  · exact expands_eliminateEpsilon_iff hw

/-- Only the start symbol has the empty alternative, and it derives nonempty words without it. -/
structure EmptyOnlyAtStart (g : Grammar) : Prop where
  eq_start : ∀ {lhs}, [] ∈ g.alternatives lhs → lhs = g.start
  nonempty : ∀ {w}, g.Expands [g.start] w → w ≠ [] → g.ExpandsNonempty [g.start] w

theorem EmptyOnlyAtStart.nil_mem (hg : g.EmptyOnlyAtStart) (h : g.Expands [g.start] []) :
    [] ∈ g.alternatives g.start := by
  apply Decidable.byContradiction
  intro hnil
  have hnonempty : g.ExpandsNonempty [g.start] [] := by
    refine h.mono fun {lhs rhs} hrule => ⟨hrule, ?_⟩
    rintro rfl
    exact hnil (hg.eq_start hrule ▸ hrule)
  cases hnonempty.eq_nil

theorem emptyOnlyAtStart_eliminateEpsilon : g.eliminateEpsilon.EmptyOnlyAtStart where
  eq_start hnil := by
    rcases mem_alternatives_eliminateEpsilon_iff.1 hnil with ⟨hne, -⟩ | ⟨-, hlhs, -⟩
    · exact absurd rfl hne
    · exact hlhs
  nonempty h hw := expandsNonempty_eliminateEpsilon (expands_of_eliminateEpsilon h) hw

end Grammar
end Chomsky
