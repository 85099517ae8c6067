import Chomsky.Proofs.Data.Counterpart
import Chomsky.Proofs.Obtainable
import Mathlib

/-! # Grammars that agree by number

Grammars agree if they are the same by number and have the same names, in whatever order. A name
and its counterpart with the same number may then differ, so that the languages are the same up to
this renaming only (`generates_of_agrees`).
-/

namespace Chomsky

theorem SymbolTable.agrees_iff {t u : SymbolTable} :
    t.agrees u ↔ t.names.Perm u.names ∧ t.kinds = u.kinds := by
  simp only [agrees, Bool.and_eq_true, List.all_eq_true, contains_iff, beq_iff_eq]
  rw [List.perm_ext_iff_of_nodup t.nodup_names u.nodup_names]
  refine and_congr_left fun _ => ?_
  exact ⟨fun h x => ⟨h.1 x, h.2 x⟩, fun h => ⟨fun x => (h x).1, fun x => (h x).2⟩⟩

namespace Grammar

variable {g h : Grammar} {s : SymbolId} {rhs word : Form} {w : List String}

/-- The name that has in another grammar the number of a name. -/
def counterpart (g h : Grammar) : String → String :=
  Chomsky.counterpart g.symbols.names h.symbols.names

section Agrees

variable (hagrees : g.agrees h)
include hagrees

theorem names_perm_of_agrees : g.symbols.names.Perm h.symbols.names := by
  simp only [agrees, Bool.and_eq_true, SymbolTable.agrees_iff] at hagrees
  exact hagrees.1.1.1.1.1

theorem isTerminal_eq_of_agrees : g.isTerminal = h.isTerminal := by
  simp only [agrees, Bool.and_eq_true, SymbolTable.agrees_iff] at hagrees
  funext s
  rw [isTerminal, isTerminal, SymbolTable.isTerminal, SymbolTable.isTerminal,
    ← SymbolTable.getElem?_kinds, hagrees.1.1.1.1.2, SymbolTable.getElem?_kinds]

theorem start_eq_of_agrees : g.start = h.start := by
  simp only [agrees, Bool.and_eq_true, beq_iff_eq] at hagrees
  exact hagrees.1.1.1.2

theorem alternatives_eq_of_agrees (lhs : SymbolId) : g.alternatives lhs = h.alternatives lhs := by
  simp only [agrees, Bool.and_eq_true] at hagrees
  rw [alternatives, alternatives, Productions.alternatives, Productions.alternatives,
    OrderedMap.get?_eq_of_sameEntries hagrees.2]

theorem counterpart_bijective : Function.Bijective (g.counterpart h) :=
  Chomsky.counterpart_bijective g.symbols.nodup_names (names_perm_of_agrees hagrees)

theorem name?_counterpart_iff {x : String} :
    h.symbols.name? s = some (g.counterpart h x) ↔ g.symbols.name? s = some x := by
  rw [← SymbolTable.getElem?_names, ← SymbolTable.getElem?_names]
  exact getElem?_counterpart_iff g.symbols.nodup_names (names_perm_of_agrees hagrees)

theorem counterpart_name (hs : s < g.symbols.size) : g.counterpart h (g.name s) = h.name s := by
  have hname := (name?_counterpart_iff hagrees).2 (SymbolTable.name?_eq_some_name hs)
  exact (congrArg (·.getD "") hname).symm

theorem map_name?_counterpart_iff : word.map h.symbols.name? = (w.map (g.counterpart h)).map some ↔
    word.map g.symbols.name? = w.map some := by
  induction word generalizing w with
  | nil => cases w <;> simp
  | cons s word ih =>
    cases w with
    | nil => simp
    | cons x w =>
      simp only [List.map_cons, List.cons.injEq, name?_counterpart_iff hagrees, ih]

theorem expands_iff_of_agrees : g.Expands rhs word ↔ h.Expands rhs word := by
  simp only [Expands, isTerminal_eq_of_agrees hagrees, alternatives_eq_of_agrees hagrees]

theorem generates_map_counterpart_iff :
    h.Generates (w.map (g.counterpart h)) ↔ g.Generates w := by
  rw [Generates, Generates, generatesFrom_iff, generatesFrom_iff]
  simp only [map_name?_counterpart_iff hagrees, expands_iff_of_agrees hagrees,
    start_eq_of_agrees hagrees]

theorem generates_iff_iff : (∀ w, g.Generates w ↔ h.Generates w) ↔
    ∀ w, g.Generates (w.map (g.counterpart h)) ↔ g.Generates w := by
  constructor
  · intro hsame w
    rw [hsame, generates_map_counterpart_iff hagrees]
  · intro hclosed w
    obtain ⟨w, rfl⟩ := List.map_surjective_iff.2 (counterpart_bijective hagrees).surjective w
    rw [hclosed, generates_map_counterpart_iff hagrees]

theorem generates_iff_of_name_eq (hname : ∀ s, g.isTerminal s → g.name s = h.name s) :
    g.Generates w ↔ h.Generates w := by
  refine generates_iff_of_expands (fun s hs => ?_) fun word => ?_
  · have hs' : h.isTerminal s := isTerminal_eq_of_agrees hagrees ▸ hs
    rw [SymbolTable.name?_eq_some_name (SymbolTable.lt_size_of_isTerminal hs),
      SymbolTable.name?_eq_some_name (SymbolTable.lt_size_of_isTerminal hs')]
    exact congrArg some (hname s hs).symm
  · rw [expands_iff_of_agrees hagrees, start_eq_of_agrees hagrees]

end Agrees

/-- Grammars that agree generate the same words up to a renaming, the one of names with the same
number. So they have one language if and only if this renaming preserves it, for instance if every
terminal has the same number in both. -/
theorem generates_of_agrees (hagrees : g.agrees h) :
    Function.Bijective (g.counterpart h) ∧
      (∀ s < g.symbols.size, g.counterpart h (g.name s) = h.name s) ∧
      (∀ w, h.Generates (w.map (g.counterpart h)) ↔ g.Generates w) ∧
      ((∀ w, g.Generates w ↔ h.Generates w) ↔
        ∀ w, g.Generates (w.map (g.counterpart h)) ↔ g.Generates w) ∧
      ((∀ s, g.isTerminal s → g.name s = h.name s) → ∀ w, g.Generates w ↔ h.Generates w) :=
  ⟨counterpart_bijective hagrees, fun _ => counterpart_name hagrees,
    fun _ => generates_map_counterpart_iff hagrees, generates_iff_iff hagrees,
    fun hname _ => generates_iff_of_name_eq hagrees hname⟩

theorem generates_iff_of_rules (hg : g.Consistent) (hrules : g.rules = [(g.start, rhs)])
    (hterminal : ∀ s ∈ rhs, g.isTerminal s) {names : List String}
    (hnames : rhs.map g.symbols.name? = names.map some) : g.Generates w ↔ w = names := by
  have hstart := hg.not_isTerminal_start
  have hrule : ∀ {lhs rhs'}, rhs' ∈ g.alternatives lhs ↔ lhs = g.start ∧ rhs' = rhs := by
    intro lhs rhs'
    rw [← mem_rules, hrules, List.mem_singleton, Prod.mk.injEq]
  have hself : ∀ {u word}, (∀ s ∈ u, g.isTerminal s) → g.Expands u word → word = u := by
    intro u word hu h
    induction h with
    | nil => rfl
    | terminal _ _ ih => rw [ih (List.forall_mem_cons.1 hu).2]
    | expand hmem =>
      exact absurd ((hrule.1 hmem).1 ▸ (List.forall_mem_cons.1 hu).1) hstart
  have hexpands : ∀ word, g.Expands [g.start] word ↔ word = rhs := by
    intro word
    constructor
    · intro h
      obtain ⟨rhs', hmem, hrhs'⟩ := h.exists_rule hstart
      obtain ⟨-, rfl⟩ := hrule.1 hmem
      exact hself hterminal hrhs'
    · rintro rfl
      exact .of_rule (hrule.2 ⟨rfl, rfl⟩) (.of_forall_terminal hterminal)
  rw [Generates, generatesFrom_iff]
  simp only [hexpands, exists_eq_left, hnames]
  exact (List.map_injective_iff.2 (Option.some_injective _)).eq_iff.trans eq_comm

/-- Whether a grammar has one production, of the terminals 1 and 2, and the names of these. -/
def terminalPair (g : Grammar) : Bool × List (Option String) :=
  (g.rules == [(g.start, [1, 2])] && [1, 2].all g.isTerminal, [1, 2].map g.symbols.name?)

theorem exists_parse_of_pair {text x y : String}
    (h : (Grammar.parse text).map terminalPair = .ok (true, [some x, some y])) :
    ∃ g, Grammar.parse text = .ok g ∧ ∀ w, g.Generates w ↔ w = [x, y] := by
  obtain ⟨g, hg, heq⟩ := map_eq_ok_iff.1 h
  obtain ⟨hshape, hnames⟩ := Prod.mk.inj heq
  obtain ⟨hrules, hterminal⟩ := Bool.and_eq_true_iff.1 hshape
  exact ⟨g, hg, fun w => generates_iff_of_rules (Obtainable.parse hg).consistent
    (beq_iff_eq.1 hrules) (List.all_eq_true.1 hterminal) hnames⟩

theorem agrees_swapped : ((Grammar.parse "S -> a b").bind fun g =>
    (Grammar.parse "S -> b a").map fun h => g.agrees h) = .ok true := by
  decide +kernel

theorem exists_swapped : ∃ g h, Grammar.parse "S -> a b" = .ok g ∧
    Grammar.parse "S -> b a" = .ok h ∧ g.agrees h ∧ (∀ w, g.Generates w ↔ w = ["a", "b"]) ∧
      ∀ w, h.Generates w ↔ w = ["b", "a"] := by
  have hab : (Grammar.parse "S -> a b").map terminalPair = .ok (true, [some "a", some "b"]) := by
    cbv
  have hba : (Grammar.parse "S -> b a").map terminalPair = .ok (true, [some "b", some "a"]) := by
    cbv
  obtain ⟨g, hg, hw⟩ := exists_parse_of_pair hab
  obtain ⟨h, hh, hw'⟩ := exists_parse_of_pair hba
  refine ⟨g, h, hg, hh, ?_, hw, hw'⟩
  obtain ⟨_, hg', hagrees⟩ := bind_eq_ok_iff.1 agrees_swapped
  obtain ⟨_, hh', hagrees⟩ := map_eq_ok_iff.1 hagrees
  cases hg.symm.trans hg'
  cases hh.symm.trans hh'
  exact hagrees

theorem generates_of_agrees_swapped : ∃ g h, Grammar.parse "S -> a b" = .ok g ∧
    Grammar.parse "S -> b a" = .ok h ∧ g.agrees h ∧
      (∀ w, h.Generates (w.map (g.counterpart h)) ↔ g.Generates w) ∧
        ["a", "b"].map (g.counterpart h) = ["b", "a"] := by
  obtain ⟨g, h, hg, hh, hagrees, hw, hw'⟩ := exists_swapped
  obtain ⟨-, -, hiff, -⟩ := generates_of_agrees hagrees
  exact ⟨g, h, hg, hh, hagrees, hiff, (hw' _).1 ((hiff _).2 ((hw _).2 rfl))⟩

/-- The texts differ in the order of two terminals, and so do their only words. -/
theorem agrees_swapped_not_generates : ∃ g h, Grammar.parse "S -> a b" = .ok g ∧
    Grammar.parse "S -> b a" = .ok h ∧ g.agrees h ∧ g.Generates ["a", "b"] ∧
      ¬h.Generates ["a", "b"] := by
  obtain ⟨g, h, hg, hh, hagrees, hw, hw'⟩ := exists_swapped
  refine ⟨g, h, hg, hh, hagrees, (hw _).2 rfl, fun hab => ?_⟩
  exact absurd ((hw' _).1 hab) (by decide)

end Grammar
end Chomsky
