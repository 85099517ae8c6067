import Chomsky.Proofs.Grammar.Analysis

/-! # Pruning

Dropping the productions of symbols that are not productive, and then those of unreachable ones,
leaves a trim grammar for the same words. In a trim grammar neither step finds anything to drop, so
that it stays as it is (`Trim.removeUnreachable_eq`, `Trim.removeNonProductive_eq`).
-/

namespace Chomsky

namespace Productions

variable {ps : Productions}

theorem rules_filter_sublist {p : SymbolId → List Form → Bool} :
    (Productions.rules (OrderedMap.filter p ps)).Sublist ps.rules := by
  rw [rules, rules, OrderedMap.entries_filter]
  exact List.filter_sublist.flatMap _

theorem rules_mapValues_sublist {f : SymbolId → List Form → List Form}
    (hf : ∀ lhs alts, (f lhs alts).Sublist alts) :
    (Productions.rules (OrderedMap.mapValues f ps)).Sublist ps.rules := by
  rw [rules, rules, OrderedMap.entries_mapValues, List.flatMap_map]
  exact List.Sublist.flatMap_right _ fun entry _ => (hf entry.1 entry.2).map _

end Productions

namespace Grammar

open Relation (ReflTransGen TransGen)

variable {g : Grammar} {a s lhs : SymbolId} {rhs w : Form} {names : List String}

theorem rules_removeUnreachable_sublist : g.removeUnreachable.rules.Sublist g.rules :=
  Productions.rules_filter_sublist

theorem rules_removeNonProductive_sublist : g.removeNonProductive.rules.Sublist g.rules :=
  (Productions.rules_mapValues_sublist fun _ _ => List.filter_sublist).trans
    Productions.rules_filter_sublist

/-- The sets hold the start symbol and what the productions mention, in the order in which they
mention it, and nothing else. -/
def Exact (g : Grammar) : Prop := ofProductions g.symbols g.start g.productions = g

theorem exact_removeUnreachable : g.removeUnreachable.Exact := rfl

theorem Exact.mem_nonterminals_iff (h : g.Exact) : a ∈ g.nonterminals ↔
    a = g.start ∨ a ∈ g.productions.keys ∨ ¬g.isTerminal a ∧ ∃ lhs, g.Mentions lhs a := by
  calc a ∈ g.nonterminals
    _ ↔ a ∈ (ofProductions g.symbols g.start g.productions).nonterminals := by rw [h]
    _ ↔ _ := mem_nonterminals_ofProductions

namespace Trim

variable (h : g.Trim)
include h

theorem mem_productive (hrhs : rhs ∈ g.alternatives lhs) (hs : s ∈ rhs) :
    g.isTerminal s ∨ s ∈ g.productive := by
  obtain ⟨w, hw⟩ := h.productive hrhs s hs
  exact forall_mem_productive hw s List.mem_cons_self

theorem reached_of_mentions (hmentions : g.Mentions lhs a) : ReflTransGen g.Mentions g.start a := by
  have ⟨rhs, hrhs, _⟩ := hmentions
  exact (h.reached lhs (Productions.mem_keys_of_mem_alternatives hrhs)).tail hmentions

theorem mem_productive_of_reached (hchain : ReflTransGen g.Mentions g.start a)
    (hstart : a ≠ g.start) : g.isTerminal a ∨ a ∈ g.productive := by
  have hchain := (Relation.reflTransGen_iff_eq_or_transGen.1 hchain).resolve_left hstart
  obtain ⟨lhs, -, rhs, hrhs, hmem⟩ := TransGen.tail'_iff.1 hchain
  exact h.mem_productive hrhs hmem

theorem reached_nonterminal (hexact : g.Exact) (ha : a ∈ g.nonterminals) :
    ReflTransGen g.Mentions g.start a := by
  rcases hexact.mem_nonterminals_iff.1 ha with rfl | hkey | ⟨-, lhs, hmentions⟩
  · exact .refl
  · exact h.reached a hkey
  · exact h.reached_of_mentions hmentions

section Consistent

variable (hg : g.Consistent)
include hg

theorem key_mem_productive (hlhs : lhs ∈ g.productions.keys) (hstart : lhs ≠ g.start) :
    lhs ∈ g.productive := by
  have hmem := h.mem_productive_of_reached (h.reached lhs hlhs) hstart
  exact hmem.resolve_left (hg.not_isTerminal_of_mem (hg.key_mem lhs hlhs))

theorem key_mem_reachable (hlhs : lhs ∈ g.productions.keys) : lhs ∈ g.reachable :=
  hg.mem_reachable_iff_derives.2
    ⟨hg.key_mem lhs hlhs, exists_derives_of_mentions (h.reached lhs hlhs)⟩

variable (hexact : g.Exact)
include hexact

theorem removeUnreachable_eq : g.removeUnreachable = g := by
  have hsame : g.productions.filter (fun lhs _ => lhs ∈ g.reachable) = g.productions :=
    OrderedMap.filter_eq_self fun lhs alts hget =>
      decide_eq_true (h.key_mem_reachable hg (OrderedMap.mem_keys_iff.2 ⟨alts, hget⟩))
  calc g.removeUnreachable
    _ = ofProductions g.symbols g.start g.productions := by rw [removeUnreachable, hsame]
    _ = g := hexact

theorem removeNonProductive_eq : g.removeNonProductive = g := by
  have hkeys : g.productions.filter (fun lhs _ => lhs ∈ g.productive || lhs == g.start) =
      g.productions := by
    refine OrderedMap.filter_eq_self fun lhs alts hget => ?_
    rw [Bool.or_eq_true, decide_eq_true_eq, beq_iff_eq, or_iff_not_imp_right]
    exact h.key_mem_productive hg (OrderedMap.mem_keys_iff.2 ⟨alts, hget⟩)
  have hsame : OrderedMap.mapValues (fun _ alts => alts.filter (·.all fun s =>
      g.isTerminal s || s ∈ g.productive)) g.productions = g.productions := by
    apply OrderedMap.mapValues_eq_self
    intro lhs alts hget
    refine List.filter_eq_self.2 fun rhs hrhs => List.all_eq_true.2 fun s hs => ?_
    have hmem := h.mem_productive (Productions.mem_alternatives_iff.2 ⟨alts, hget, hrhs⟩) hs
    rwa [Bool.or_eq_true, decide_eq_true_eq]
  calc g.removeNonProductive
    _ = ofProductions g.symbols g.start g.productions := by
        rw [removeNonProductive, hkeys, hsame]
    _ = g := hexact

end Consistent

end Trim

/-- Without useless symbols. The unreachable ones go last, since symbols may become unreachable when
others go. -/
def pruned (g : Grammar) : Grammar := g.removeNonProductive.removeUnreachable

theorem Consistent.pruned (hg : g.Consistent) : g.pruned.Consistent :=
  hg.removeNonProductive.removeUnreachable

theorem expands_pruned_iff (hg : g.Consistent) :
    g.pruned.Expands [g.start] w ↔ g.Expands [g.start] w :=
  (expands_removeUnreachable_iff hg.removeNonProductive).trans expands_removeNonProductive_iff

/-- Pruning keeps the words and leaves some of the productions. All nonterminals but the start
symbol are then reachable and productive, and neither step changes anything any more. -/
theorem pruned_spec (hg : g.Obtainable) :
    g.pruned.symbols = g.symbols ∧ g.pruned.start = g.start ∧
    (∀ w, g.pruned.Generates w ↔ g.Generates w) ∧
    (∀ a ∈ g.pruned.nonterminals, a ≠ g.pruned.start →
      (∃ u v, g.pruned.Derives [g.pruned.start] (u ++ a :: v)) ∧
        ∃ w, g.pruned.GeneratesFrom a w) ∧
    g.pruned.rules.Sublist g.rules ∧
    g.pruned.removeUnreachable = g.pruned ∧ g.pruned.removeNonProductive = g.pruned := by
  have hc := hg.consistent
  have hpruned := hc.pruned
  have htrim : g.pruned.Trim := trim_removeUnreachable hc
  have hexact : g.pruned.Exact := exact_removeUnreachable
  refine ⟨rfl, rfl, fun w => ?_, fun a ha hstart => ?_, ?_, ?_, ?_⟩
  · exact generates_iff_of_expands (fun _ _ => rfl) fun _ => expands_pruned_iff hc
  · have hchain := htrim.reached_nonterminal hexact ha
    have hproductive := (htrim.mem_productive_of_reached hchain hstart).resolve_left
      (hpruned.not_isTerminal_of_mem ha)
    exact ⟨exists_derives_of_mentions hchain,
      (hpruned.mem_productive_iff_generatesFrom.1 hproductive).2⟩
  · exact rules_removeUnreachable_sublist.trans rules_removeNonProductive_sublist
  · exact htrim.removeUnreachable_eq hpruned hexact
  · exact htrim.removeNonProductive_eq hpruned hexact

/-- A symbol that is only mentioned beside one that is not productive goes with it. The other order
of the two steps leaves its production. -/
theorem render_pruned_orphan :
    ((Grammar.parse "S -> A B | a C\nA -> b\nB -> B C\nC -> c").map fun g =>
      (g.pruned.render, g.removeUnreachable.removeNonProductive.render,
        (g.pruned.nonterminals.toList.filter (· ≠ g.pruned.start)).map g.name)) =
      .ok ("S -> a C\nC -> c\n", "S -> a C\nA -> b\nC -> c\n", ["C"]) := by
  decide +kernel

theorem pruned_spec_orphan : ∃ g, Grammar.parse "S -> A B | a C\nA -> b\nB -> B C\nC -> c" = .ok g ∧
    (∀ w, g.pruned.Generates w ↔ g.Generates w) ∧
    (∃ c, g.name c = "C" ∧ (∃ u v, g.pruned.Derives [g.pruned.start] (u ++ c :: v)) ∧
      ∃ w, g.pruned.GeneratesFrom c w) ∧
    g.pruned.removeUnreachable = g.pruned ∧ g.pruned.removeNonProductive = g.pruned := by
  obtain ⟨g, hg, hrender⟩ := map_eq_ok_iff.1 render_pruned_orphan
  obtain ⟨-, -, hgenerates, huseful, -, hreachable, hproductive⟩ := pruned_spec (.parse hg)
  obtain ⟨-, hnames⟩ := Prod.mk.inj (Prod.mk.inj hrender).2
  obtain ⟨c, hc, hname⟩ := List.map_eq_singleton_iff.1 hnames
  obtain ⟨hmem, hne⟩ := List.mem_filter.1 (hc ▸ List.mem_singleton_self c)
  exact ⟨g, hg, hgenerates, ⟨c, hname, huseful c hmem (of_decide_eq_true hne)⟩, hreachable,
    hproductive⟩

end Grammar
end Chomsky
