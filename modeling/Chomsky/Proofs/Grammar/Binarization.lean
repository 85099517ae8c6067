import Chomsky.Proofs.Grammar.Failure

/-! # Binary grammars of grammars that keep their empty alternatives

Long right-hand sides become binary in any grammar. A new start symbol takes over the empty
alternative of the old one. So the words stay the same if the old one has none, or if it is on no
right-hand side and keeps its place (`binarize_spec`). Unit productions and the empty alternatives
of other nonterminals do no harm.
-/

namespace Chomsky.Grammar

variable {g b s : Grammar} {t : SymbolTable} {start lhs a : SymbolId} {ps : Productions}
  {suffix : String} {names : NormalFormNames} {u w rhs : Form} {v : Variables}

theorem mem_of_separateStart (hg : g.Consistent)
    (h : g.separateStart suffix = .ok (t, start, ps)) (hrhs : rhs ∈ g.alternatives lhs)
    (hne : g.occursOnRight g.start → lhs = g.start → rhs ≠ []) : rhs ∈ ps.alternatives lhs := by
  rcases separateStart_eq_ok h with ⟨hoccurs, hfresh, rfl⟩ | ⟨-, rfl, rfl, rfl⟩
  · have hkey := not_mem_keys_of_grows hg (SymbolTable.grows_of_fresh hfresh)
    exact (mem_withStart_iff hkey).2 (Or.inr ⟨hrhs, hne hoccurs⟩)
  · exact hrhs

theorem eq_start_of_separateStart (h : g.separateStart suffix = .ok (t, start, ps))
    (hlt : start < g.symbols.size) : start = g.start := by
  rcases separateStart_eq_ok h with ⟨-, hfresh, -⟩ | ⟨-, -, hstart, -⟩
  · exact absurd hlt (Nat.not_lt.2 (SymbolTable.grows_of_fresh hfresh).id_eq.ge)
  · exact hstart

section SeparateStart

variable (hg : g.Consistent) (h : g.separateStart suffix = .ok (t, start, ps))
  (hstart : g.occursOnRight g.start → [] ∉ g.alternatives g.start)
include hg h hstart

theorem expands_separateStart (hw : g.Expands u w) : (ofProductions t start ps).Expands u w := by
  simp only [Expands, (separates_of_separateStart hg h).isTerminal_ofProductions]
  refine hw.mono fun {lhs rhs} hrhs => mem_of_separateStart hg h hrhs ?_
  rintro hoccurs rfl rfl
  exact hstart hoccurs hrhs

theorem expands_separateStart_iff (ha : a < g.symbols.size) :
    (ofProductions t start ps).Expands [a] w ↔ g.Expands [a] w := by
  refine ⟨fun hw => ?_, expands_separateStart hg h hstart⟩
  have hw := (separates_of_separateStart hg h).expands_of hw
  rw [List.flatMap_singleton] at hw
  split at hw
  · next heq =>
    rw [heq, eq_start_of_separateStart h (heq ▸ ha)]
    exact hw
  · exact hw

theorem expands_start_separateStart_iff :
    (ofProductions t start ps).Expands [start] w ↔ g.Expands [g.start] w := by
  have hsep := separates_of_separateStart hg h
  refine ⟨hsep.expands_start_of, fun hw => ?_⟩
  obtain ⟨rhs, hmem, hrhs⟩ := hw.exists_rule hg.not_isTerminal_start
  exact .of_rule (hsep.start_mem hmem) (expands_separateStart hg h hstart hrhs)

end SeparateStart

/-- Right-hand sides of a binary grammar have less than two symbols or are pairs of nonterminals. -/
theorem BinaryOf.exists_pair (h : BinaryOf s b v) (hrhs : rhs ∈ b.alternatives lhs)
    (hlength : 2 ≤ rhs.length) :
    ∃ x y, rhs = [x, y] ∧ b.symbols.isNonterminal x ∧ b.symbols.isNonterminal y := by
  rw [h.symbols]
  rcases h.back hrhs with hdef | ⟨old, -, hbinarizes⟩
  · rcases h.invariant.rhs hdef with ⟨a, rfl, -⟩ | ⟨x, y, rfl, hx, hy⟩
    · exact absurd hlength (by simp)
    · exact ⟨x, y, rfl, hx.nonterminal, hy.nonterminal⟩
  · rcases hbinarizes.shape with ⟨hshort, rfl⟩ | ⟨x, y, rfl, hx, hy⟩
    · exact absurd hlength (Nat.not_le.2 hshort)
    · exact ⟨x, y, rfl, hx.nonterminal, hy.nonterminal⟩

section Binarize

variable (hg : g.Consistent) (h : g.binarizeWith names = .ok b)
  (hstart : g.occursOnRight g.start → [] ∉ g.alternatives g.start)
include hg h hstart

theorem expands_binarizeWith_iff (ha : a < g.symbols.size) :
    b.Expands [a] w ↔ g.Expands [a] w := by
  obtain ⟨-, t, start, ps, v, hseparate, hsep, hbin⟩ := exists_binaryOf hg h
  have hlt : a < (ofProductions t start ps).symbols.size := Nat.lt_of_lt_of_le ha hsep.ext.size_le
  calc b.Expands [a] w
    _ ↔ (ofProductions t start ps).Expands [a] w := hbin.expands_iff (hsep.consistent hg) hlt
    _ ↔ g.Expands [a] w := expands_separateStart_iff hg hseparate hstart ha

theorem expands_start_binarizeWith_iff : b.Expands [b.start] w ↔ g.Expands [g.start] w := by
  obtain ⟨-, t, start, ps, v, hseparate, hsep, hbin⟩ := exists_binaryOf hg h
  calc b.Expands [b.start] w
    _ ↔ (ofProductions t start ps).Expands [start] w :=
        hbin.expands_start_iff (hsep.consistent hg)
    _ ↔ g.Expands [g.start] w := expands_start_separateStart_iff hg hseparate hstart

end Binarize

/-- A grammar whose start symbol is on no right-hand side or has no empty alternative becomes
binary, and the start symbol and all nonterminals generate the same words as before. -/
theorem binarize_spec (hg : g.Obtainable)
    (hstart : (∀ lhs, ∀ rhs ∈ g.alternatives lhs, g.start ∉ rhs) ∨ [] ∉ g.alternatives g.start) :
    (∃ b, g.binarize = .ok b) ∧ ∀ names b, g.binarizeWith names = .ok b →
      (∀ w, b.Generates w ↔ g.Generates w) ∧
      (∀ a ∈ g.nonterminals,
        b.name a = g.name a ∧ ∀ w, b.GeneratesFrom a w ↔ g.GeneratesFrom a w) ∧
      ∀ lhs, ∀ rhs ∈ b.alternatives lhs, 2 ≤ rhs.length →
        ∃ x y, rhs = [x, y] ∧ b.symbols.isNonterminal x ∧ b.symbols.isNonterminal y := by
  have hc := hg.consistent
  have hstart : g.occursOnRight g.start → [] ∉ g.alternatives g.start := by
    intro hoccurs
    obtain ⟨lhs, rhs, hrhs, hmem⟩ := occursOnRight_iff.1 hoccurs
    exact hstart.resolve_left fun hnone => hnone lhs rhs hrhs hmem
  refine ⟨hc.exists_binarizeWith not_isBlank_stem not_isBlank_startSuffix, fun names b h => ?_⟩
  obtain ⟨hext, hterminal⟩ := symbols_binarizeWith hc h
  have hname : ∀ a, b.isTerminal a → g.symbols.name? a = b.symbols.name? a := fun a ha =>
    name?_eq_of_extends hext hterminal ha
  refine ⟨fun w => ?_, fun a ha => ?_, fun lhs rhs hrhs hlength => ?_⟩
  · exact generates_iff_of_expands hname fun word => expands_start_binarizeWith_iff hc h hstart
  · have hlt := SymbolTable.lt_size_of_isNonterminal (hc.nonterminal a ha)
    refine ⟨hext.name_eq hlt, fun w => ?_⟩
    exact generatesFrom_iff_of_expands hname fun word _ => expands_binarizeWith_iff hc h hstart hlt
  · obtain ⟨-, t, start, ps, v, -, -, hbin⟩ := exists_binaryOf hc h
    exact hbin.exists_pair hrhs hlength

/-- The start symbol is on right-hand sides and has no empty alternative, while a nonterminal to
which it has a unit production has one. -/
theorem render_binarize_nested :
    ((Grammar.parse "S -> a S b | A\nA -> ε | S b").bind fun g =>
      g.binarize.map fun b => (decide ([] ∈ g.alternatives g.start), b.render)) =
      .ok (false,
        "S' -> X0 X2 | A\nS -> X0 X2 | A\nA -> ε | S X1\nX0 -> a\nX1 -> b\nX2 -> S X1\n") := by
  decide +kernel

theorem binarize_spec_nested : ∃ g b, Grammar.parse "S -> a S b | A\nA -> ε | S b" = .ok g ∧
    [] ∉ g.alternatives g.start ∧ g.binarize = .ok b ∧ (∀ w, b.Generates w ↔ g.Generates w) ∧
    ∀ a ∈ g.nonterminals, ∀ w, b.GeneratesFrom a w ↔ g.GeneratesFrom a w := by
  obtain ⟨g, hg, h⟩ := bind_eq_ok_iff.1 render_binarize_nested
  obtain ⟨b, hb, heq⟩ := map_eq_ok_iff.1 h
  have hnil : [] ∉ g.alternatives g.start := of_decide_eq_false (Prod.mk.inj heq).1
  obtain ⟨-, hspec⟩ := binarize_spec (.parse hg) (Or.inr hnil)
  obtain ⟨hgenerates, hfrom, -⟩ := hspec {} b hb
  exact ⟨g, b, hg, hnil, hb, hgenerates, fun a ha => (hfrom a ha).2⟩

end Chomsky.Grammar
