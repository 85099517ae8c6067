import Chomsky.Proofs.Grammar.Omission
import Chomsky.Proofs.Grammar.UnitCycle

/-! # Chains of unit productions

Unit productions are eliminated unless chains of them lead from a nonterminal to another one and
back, and then the error names such a cycle (`eliminateUnits_fails_iff`). Otherwise a nonterminal
gets the alternatives of those to which its chains lead (`alternatives_eliminateUnits`), apart from
the empty one. If symbols that vanish have been left out before, no other word is lost by this
(`generatesFrom_eliminateUnits_iff`).
-/

namespace Chomsky.Grammar

open Relation (ReflTransGen TransGen)

variable {g u : Grammar} {a b lhs : SymbolId} {rhs : Form} {cycle : List SymbolId}

/-- The names of different nonterminals, two or more, each with a unit production for the next one,
and the first name once more at the end. -/
def IsUnitCycle (g : Grammar) (names : List String) : Prop :=
  ∃ first rest, names = first :: rest ++ [first] ∧ rest ≠ [] ∧ (first :: rest).Nodup ∧
    (∀ name ∈ first :: rest, g.hasNonterminal name) ∧
    names.IsChain fun x y => g.hasProduction x [y]

theorem Consistent.isUnitCycle_map_name (hg : g.Consistent) (h : IsCycle g.unitTargets cycle) :
    g.IsUnitCycle (cycle.map g.name) := by
  obtain ⟨a, l, rfl, hnodup, hchain⟩ := h
  have hstep : ∀ {x y}, y ∈ g.unitTargets x → [y] ∈ g.alternatives x := fun hy =>
    (mem_unitTargets_iff.1 hy).1.1
  have hkey : ∀ x ∈ a :: l, x ∈ g.productions.keys := by
    intro x hx
    obtain ⟨y, hy⟩ := exists_next_of_isChain hchain hx
    exact Productions.mem_keys_of_mem_alternatives (hstep hy)
  refine ⟨g.name a, l.map g.name, by simp, ?_, ?_, ?_, ?_⟩
  · -- a cycle of one node would need it as its own target, and a node is no target of itself
    intro hnil
    obtain rfl := List.map_eq_nil_iff.1 hnil
    have hself := (List.isChain_cons_cons.1 hchain).1
    exact (mem_unitTargets_iff.1 hself).2 rfl
  · exact SymbolTable.nodup_map_name hnodup fun x hx => hg.key_lt (hkey x hx)
  · intro name hname
    obtain ⟨x, hx, rfl⟩ := List.mem_map.1 (show name ∈ (a :: l).map g.name from hname)
    exact hg.hasNonterminal_name (hg.key_mem x (hkey x hx))
  · exact List.isChain_map_of_isChain g.name (fun x y hy => hg.hasProduction_name (hstep hy)) hchain

theorem Consistent.mem_nonterminals_of_transGen (hg : g.Consistent)
    (h : TransGen (g.UnitStep g.productions) a b) : a ∈ g.nonterminals := by
  obtain ⟨c, hstep, -⟩ := TransGen.head'_iff.1 h
  exact hg.key_mem a (Productions.mem_keys_of_mem_alternatives hstep.1)

theorem Consistent.eliminateUnits_fails_iff_transGen (hg : g.Consistent) :
    (∃ e, g.eliminateUnits = .error e) ↔
      ∃ a ∈ g.nonterminals, ∃ b ∈ g.nonterminals, a ≠ b ∧
        TransGen (g.UnitStep g.productions) a b ∧ TransGen (g.UnitStep g.productions) b a := by
  rw [hg.exists_eliminateUnits_eq_error_iff, exists_transGen_unitTargets_iff]
  have hproper : ∀ {a b}, a ≠ b → ReflTransGen (g.UnitStep g.productions) a b →
      TransGen (g.UnitStep g.productions) a b := fun hne h =>
    (Relation.reflTransGen_iff_eq_or_transGen.1 h).resolve_left hne.symm
  constructor
  · rintro ⟨a, b, hne, hab, hba⟩
    have hab := hproper hne hab
    have hba := hproper hne.symm hba
    exact ⟨a, hg.mem_nonterminals_of_transGen hab, b, hg.mem_nonterminals_of_transGen hba, hne,
      hab, hba⟩
  · rintro ⟨a, -, b, -, hne, hab, hba⟩
    exact ⟨a, b, hne, hab.to_reflTransGen, hba.to_reflTransGen⟩

/-- The elimination fails if and only if there is a cycle of unit productions through two or more
nonterminals. Then the error names such a cycle. Otherwise the bounded rounds come to an end. -/
theorem eliminateUnits_fails_iff (hg : g.Obtainable) :
    ((∃ e, g.eliminateUnits = .error e) ↔
      ∃ a ∈ g.nonterminals, ∃ b ∈ g.nonterminals, a ≠ b ∧
        TransGen (g.UnitStep g.productions) a b ∧ TransGen (g.UnitStep g.productions) b a) ∧
    (∀ e, g.eliminateUnits = .error e → ∃ names, e = .unitCycle names ∧ g.IsUnitCycle names) ∧
    (g.unitCycle? = none → ∃ ps,
      g.replaceUnitsWithin (g.productions.size * g.productions.size + 1) g.productions =
        .ok ps) := by
  have hc := hg.consistent
  refine ⟨hc.eliminateUnits_fails_iff_transGen, fun e h => ?_, fun h => ?_⟩
  · obtain ⟨cycle, hcycle, rfl⟩ := hc.eliminateUnits_eq_error h
    exact ⟨_, rfl, hc.isUnitCycle_map_name hcycle⟩
  · exact exists_replaceUnitsWithin_of_acyclic fun a => hc.not_transGen_of_unitCycle? h

theorem eliminateUnits_backAndForth :
    ((Grammar.parse "S -> A | x\nA -> B | a\nB -> A | b").map fun g => g.eliminateUnits) =
      .ok (.error (.unitCycle ["A", "B", "A"])) := by
  decide +kernel

/-- Unit productions of nonterminals for themselves are no cycle. -/
theorem unitCycle?_selfUnits :
    ((Grammar.parse "S -> S | A\nA -> A | a").map fun g => g.unitCycle?) = .ok none := by
  decide +kernel

theorem eliminateUnits_fails_iff_backAndForth :
    (∃ g, Grammar.parse "S -> A | x\nA -> B | a\nB -> A | b" = .ok g ∧
      (∃ a ∈ g.nonterminals, ∃ b ∈ g.nonterminals, a ≠ b ∧
        TransGen (g.UnitStep g.productions) a b ∧ TransGen (g.UnitStep g.productions) b a) ∧
      g.IsUnitCycle ["A", "B", "A"]) ∧
    ∃ g, Grammar.parse "S -> S | A\nA -> A | a" = .ok g ∧ g.unitCycle? = none ∧ ∃ ps,
      g.replaceUnitsWithin (g.productions.size * g.productions.size + 1) g.productions =
        .ok ps := by
  constructor
  · obtain ⟨g, hg, herror⟩ := map_eq_ok_iff.1 eliminateUnits_backAndForth
    obtain ⟨hiff, hcycle, -⟩ := eliminateUnits_fails_iff (.parse hg)
    obtain ⟨names, heq, hnames⟩ := hcycle _ herror
    cases heq
    exact ⟨g, hg, hiff.1 ⟨_, herror⟩, hnames⟩
  · obtain ⟨g, hg, hnone⟩ := map_eq_ok_iff.1 unitCycle?_selfUnits
    obtain ⟨-, -, hrounds⟩ := eliminateUnits_fails_iff (.parse hg)
    exact ⟨g, hg, hnone, hrounds hnone⟩

/-- What a left-hand side has after the elimination, by the chains of its unit productions. -/
theorem mem_eliminateUnits_iff_chain (h : g.eliminateUnits = .ok u) :
    rhs ∈ u.alternatives lhs ↔ ¬g.IsUnit rhs ∧
      ∃ b, ReflTransGen (g.UnitStep g.productions) lhs b ∧ rhs ∈ g.alternatives b ∧
        (rhs = [] → b = lhs) := by
  rw [mem_alternatives_eliminateUnits_iff h, unitTarget?_eq_none_iff]
  refine and_congr_right fun _ => ?_
  by_cases hrhs : rhs = []
  · subst hrhs
    constructor
    · rintro (⟨-, hnil⟩ | ⟨hne, -⟩)
      · exact ⟨lhs, .refl, hnil, fun _ => rfl⟩
      · exact absurd rfl hne
    · rintro ⟨b, -, hnil, hb⟩
      exact Or.inl ⟨rfl, hb rfl ▸ hnil⟩
  · constructor
    · rintro (⟨hnil, -⟩ | ⟨-, b, hchain, hmem⟩)
      · exact absurd hnil hrhs
      · exact ⟨b, hchain, hmem, fun hnil => absurd hnil hrhs⟩
    · rintro ⟨b, hchain, hmem, -⟩
      exact Or.inr ⟨hrhs, b, hchain, hmem⟩

/-- After the elimination every left-hand side is in its place. It has the alternatives that are
not units of the nonterminals to which its unit productions lead, each of them once, and the empty
one only if it is its own. -/
theorem alternatives_eliminateUnits (h : g.eliminateUnits = .ok u) :
    u.productions.keys = g.productions.keys ∧
      (∀ lhs, (u.alternatives lhs).Nodup ∧
        ∀ rhs, rhs ∈ u.alternatives lhs ↔ ¬g.IsUnit rhs ∧
          ∃ b, ReflTransGen (g.UnitStep g.productions) lhs b ∧ rhs ∈ g.alternatives b ∧
            (rhs = [] → b = lhs)) ∧
      ∀ lhs, ∀ rhs ∈ u.alternatives lhs, ¬u.IsUnit rhs := by
  refine ⟨keys_eliminateUnits h, fun lhs => ⟨nodup_alternatives_eliminateUnits h, fun rhs => ?_⟩,
    fun lhs rhs hrhs => ?_⟩
  · exact mem_eliminateUnits_iff_chain h
  · rintro ⟨b, rfl, hb⟩
    exact hb (unitFree_eliminateUnits h lhs b hrhs)

/-- Two chains lead to the last nonterminal, which has a unit production for itself. The empty
alternative of the second one is not inherited. -/
theorem render_eliminateUnits_shared :
    ((Grammar.parse "T -> S | A\nS -> a S b | A | ε\nA -> A | c").bind fun g =>
      g.eliminateUnits.map fun u => u.render) =
      .ok "T -> a S b | c\nS -> a S b | c | ε\nA -> c\n" := by
  decide +kernel

theorem alternatives_eliminateUnits_shared : ∃ g u,
    Grammar.parse "T -> S | A\nS -> a S b | A | ε\nA -> A | c" = .ok g ∧
      g.eliminateUnits = .ok u ∧ u.productions.keys = g.productions.keys ∧
      ∀ lhs rhs, rhs ∈ u.alternatives lhs ↔ ¬g.IsUnit rhs ∧
        ∃ b, ReflTransGen (g.UnitStep g.productions) lhs b ∧ rhs ∈ g.alternatives b ∧
          (rhs = [] → b = lhs) := by
  obtain ⟨g, hg, h⟩ := bind_eq_ok_iff.1 render_eliminateUnits_shared
  obtain ⟨u, hu, -⟩ := map_eq_ok_iff.1 h
  obtain ⟨hkeys, halternatives, -⟩ := alternatives_eliminateUnits hu
  exact ⟨g, u, hg, hu, hkeys, fun lhs => (halternatives lhs).2⟩

/-- After empty alternatives, unit productions are eliminated without a change to the words of the
start symbol and to the nonempty words of any symbol. The empty alternative of a start symbol that
vanishes is not passed on. -/
theorem generatesFrom_eliminateUnits_iff (h : g.eliminateEpsilon.eliminateUnits = .ok u) :
    (∀ names, u.Generates names ↔ g.eliminateEpsilon.Generates names) ∧
    (∀ a names, names ≠ [] →
      (u.GeneratesFrom a names ↔ g.eliminateEpsilon.GeneratesFrom a names)) ∧
    ∀ a, [] ∈ u.alternatives a ↔ a = g.start ∧ g.Vanishes g.start := by
  have hname : ∀ a, g.eliminateEpsilon.symbols.name? a = u.symbols.name? a := fun a => by
    rw [symbols_eliminateUnits h]
  refine ⟨fun names => ?_, fun a names hnames => ?_, fun a => ?_⟩
  · exact generates_iff_of_expands (fun a _ => hname a) fun _ =>
      emptyOnlyAtStart_eliminateEpsilon.expands_eliminateUnits_iff h
  · exact generatesFrom_iff_of_expands_nonempty hnames (fun a _ => hname a) fun _ =>
      expands_eliminateUnits_eliminateEpsilon_iff h
  · rw [nil_mem_eliminateUnits_iff h, mem_alternatives_eliminateEpsilon_iff,
      mem_nullable_iff_vanishes]
    simp

/-- A nonterminal that leads to the start symbol loses the empty word. -/
theorem nullable_eliminateUnits_toStart :
    ((Grammar.parse "S -> a A | ε\nA -> S | b").bind fun g =>
      g.eliminateEpsilon.eliminateUnits.map fun u =>
        (u.render, (g.eliminateEpsilon.nullable.toList.filter (· ∉ u.nullable)).map g.name)) =
      .ok ("S -> a A | a | ε\nA -> a A | a | b\n", ["A"]) := by
  decide +kernel

theorem generatesFrom_eliminateUnits_iff_toStart : ∃ g u,
    Grammar.parse "S -> a A | ε\nA -> S | b" = .ok g ∧ g.eliminateEpsilon.eliminateUnits = .ok u ∧
      (∀ names, u.Generates names ↔ g.eliminateEpsilon.Generates names) ∧
      ∃ a, g.name a = "A" ∧ g.eliminateEpsilon.Vanishes a ∧ ¬u.Vanishes a ∧ ∀ names, names ≠ [] →
        (u.GeneratesFrom a names ↔ g.eliminateEpsilon.GeneratesFrom a names) := by
  obtain ⟨g, hg, h⟩ := bind_eq_ok_iff.1 nullable_eliminateUnits_toStart
  obtain ⟨u, hu, hlost⟩ := map_eq_ok_iff.1 h
  obtain ⟨a, ha, hname⟩ := List.map_eq_singleton_iff.1 (Prod.mk.inj hlost).2
  obtain ⟨hvanishes, hnot⟩ := List.mem_filter.1 (ha ▸ List.mem_singleton_self a)
  obtain ⟨hgenerates, hnonempty, -⟩ := generatesFrom_eliminateUnits_iff hu
  refine ⟨g, u, hg, hu, hgenerates, a, hname, mem_nullable_iff_vanishes.1 hvanishes, ?_,
    hnonempty a⟩
  exact fun h => of_decide_eq_true hnot (mem_nullable_iff_vanishes.2 h)

end Chomsky.Grammar
