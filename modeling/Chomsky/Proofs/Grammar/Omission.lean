import Chomsky.Proofs.Obtainable
import Mathlib

/-! # Omission of symbols that vanish

Without empty alternatives a nonterminal has what remains of its alternatives when symbols that
vanish are left out, each form once (`alternatives_eliminateEpsilon`). It keeps its nonempty words,
and the start symbol keeps the empty one (`generatesFrom_eliminateEpsilon_iff`).
-/

namespace Chomsky

/-- The second form is what remains of the first one when some occurrences of symbols with a
property are left out. -/
inductive Omits (p : SymbolId → Prop) : Form → Form → Prop
  | nil : Omits p [] []
  | keep {s : SymbolId} {u v : Form} (h : Omits p u v) : Omits p (s :: u) (s :: v)
  | drop {s : SymbolId} {u v : Form} (hs : p s) (h : Omits p u v) : Omits p (s :: u) v

/-- The variants of a form are what remains of it when nullable symbols are left out. -/
theorem mem_variants_iff_omits {nullable : OrderedSet SymbolId} {p : SymbolId → Prop} {u v : Form}
    (hp : ∀ s, s ∈ nullable ↔ p s) : v ∈ variants nullable u ↔ Omits p u v := by
  constructor
  · intro h
    induction u generalizing v with
    | nil =>
      rw [List.mem_singleton.1 h]
      exact .nil
    | cons s u ih =>
      obtain ⟨v', hv', rfl | ⟨hs, rfl⟩⟩ := mem_variants_cons_iff.1 h
      · exact .keep (ih hv')
      · exact .drop ((hp s).1 hs) (ih hv')
  · intro h
    induction h with
    | nil => exact List.mem_singleton.2 rfl
    | keep _ ih => exact cons_mem_variants ih
    | drop hs _ ih => exact mem_variants_cons_of_mem ((hp _).2 hs) ih

namespace Grammar

variable {g : Grammar} {lhs s : SymbolId} {rhs : Form}

def Vanishes (g : Grammar) (s : SymbolId) : Prop := g.Derives [s] []

/-- The forms that remain of the alternatives of a nonterminal when some occurrences of symbols that
vanish are left out, without the empty one. A start symbol that vanishes has the empty one too. -/
def shortened (g : Grammar) (lhs : SymbolId) : Set Form :=
  {rhs | rhs ≠ [] ∧ (∃ alt ∈ g.alternatives lhs, Omits g.Vanishes alt rhs) ∨
    rhs = [] ∧ lhs = g.start ∧ g.Vanishes lhs}

theorem mem_nullable_iff_vanishes : s ∈ g.nullable ↔ g.Vanishes s := by
  rw [mem_nullable_iff, expands_iff_derives]
  exact and_iff_left nofun

theorem mem_eliminateEpsilon_iff_shortened :
    rhs ∈ g.eliminateEpsilon.alternatives lhs ↔ rhs ∈ g.shortened lhs := by
  rw [mem_alternatives_eliminateEpsilon_iff, shortened, Set.mem_ofPred_eq]
  simp only [mem_variants_iff_omits fun s => mem_nullable_iff_vanishes, mem_nullable_iff_vanishes]
  refine or_congr_right (and_congr_right fun _ => and_congr_right fun hlhs => ?_)
  rw [hlhs]

/-- Without empty alternatives a left-hand side has the forms that remain of its alternatives, each
of them once. It stays if there are such forms, and a start symbol stays in any case. -/
theorem alternatives_eliminateEpsilon (g : Grammar) (lhs : SymbolId) :
    (g.eliminateEpsilon.alternatives lhs).Nodup ∧
      (∀ rhs, rhs ∈ g.eliminateEpsilon.alternatives lhs ↔ rhs ∈ g.shortened lhs) ∧
      (lhs ∈ g.eliminateEpsilon.productions.keys ↔
        (g.shortened lhs).Nonempty ∨ lhs = g.start ∧ lhs ∈ g.productions.keys) := by
  refine ⟨nodup_alternatives_eliminateEpsilon, fun rhs => mem_eliminateEpsilon_iff_shortened, ?_⟩
  rw [mem_keys_eliminateEpsilon_iff]
  simp only [mem_eliminateEpsilon_iff_shortened, Set.Nonempty]

theorem generates_eliminateEpsilon_iff {names : List String} :
    g.eliminateEpsilon.Generates names ↔ g.Generates names :=
  generates_iff_of_expands (fun _ _ => rfl) fun _ => expands_start_eliminateEpsilon_iff

theorem generatesFrom_eliminateEpsilon_iff_of_ne_nil {names : List String} (hnames : names ≠ []) :
    g.eliminateEpsilon.GeneratesFrom s names ↔ g.GeneratesFrom s names :=
  generatesFrom_iff_of_expands_nonempty hnames (fun _ _ => rfl) fun _ =>
    expands_eliminateEpsilon_iff

/-- Without empty alternatives the start symbol generates the same words and every nonterminal the
same nonempty words. A nonterminal that is no left-hand side any more generates no word. -/
theorem generatesFrom_eliminateEpsilon_iff (hg : g.Obtainable) :
    (∀ names, g.eliminateEpsilon.Generates names ↔ g.Generates names) ∧
    ∀ a ∈ g.nonterminals,
      (∀ names, names ≠ [] →
        (g.eliminateEpsilon.GeneratesFrom a names ↔ g.GeneratesFrom a names)) ∧
      (a ∉ g.eliminateEpsilon.productions.keys →
        ∀ names, ¬g.eliminateEpsilon.GeneratesFrom a names) := by
  refine ⟨fun _ => generates_eliminateEpsilon_iff, fun a ha => ⟨fun names hnames => ?_, ?_⟩⟩
  · exact generatesFrom_eliminateEpsilon_iff_of_ne_nil hnames
  · intro hkey names hgenerates
    obtain ⟨word, hword, -⟩ := generatesFrom_iff.1 hgenerates
    have hterminal := SymbolTable.not_isTerminal_of_isNonterminal (hg.consistent.nonterminal a ha)
    obtain ⟨rhs, hrhs⟩ := exists_mem_alternatives (g := g.eliminateEpsilon) hterminal hword
    exact hkey (Productions.mem_keys_of_mem_alternatives hrhs)

/-- Among left-hand sides that lead to each other and vanish, one has nothing but the empty
alternative. -/
theorem lost_eliminateEpsilon_mutual :
    ((Grammar.parse "S -> A E | b\nA -> a A | B\nB -> A E | ε\nE -> ε").map fun g =>
      (g.nonterminals.toList.filter (· ∉ g.eliminateEpsilon.productions.keys)).map g.name) =
      .ok ["E"] := by
  decide +kernel

theorem generatesFrom_eliminateEpsilon_iff_mutual : ∃ g,
    Grammar.parse "S -> A E | b\nA -> a A | B\nB -> A E | ε\nE -> ε" = .ok g ∧
      (∀ names, g.eliminateEpsilon.Generates names ↔ g.Generates names) ∧
      ∃ e ∈ g.nonterminals, g.name e = "E" ∧
        ∀ names, ¬g.eliminateEpsilon.GeneratesFrom e names := by
  obtain ⟨g, hg, hlost⟩ := map_eq_ok_iff.1 lost_eliminateEpsilon_mutual
  obtain ⟨e, he, hname⟩ := List.map_eq_singleton_iff.1 hlost
  obtain ⟨hmem, hkey⟩ := List.mem_filter.1 (he ▸ List.mem_singleton_self e)
  obtain ⟨hgenerates, hfrom⟩ := generatesFrom_eliminateEpsilon_iff (.parse hg)
  exact ⟨g, hg, hgenerates, e, hmem, hname, (hfrom e hmem).2 (of_decide_eq_true hkey)⟩

end Grammar
end Chomsky
