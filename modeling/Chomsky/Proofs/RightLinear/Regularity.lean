import Chomsky.Grammar.Hierarchy
import Chomsky.Proofs.Automaton.Acceptor
import Chomsky.Proofs.Obtainable
import Mathlib

/-! # Linear rules generate regular languages

A derivation by right-linear rules has always read a part of the word, and what it still has to
expand is the end of a right-hand side. There are finitely many of these, and so finitely many left
quotients (`isRegular_spelled`). Left-linear rules are right-linear ones read backwards.
-/

namespace Chomsky

section Rules

variable (terminal : SymbolId → Prop) (rule : SymbolId → Form → Prop)
  (name : SymbolId → Option String)

def spelled (u : Form) : Language String :=
  {w | ∃ word, Expands terminal rule u word ∧ word.map name = w.map some}

/-- The ends of right-hand sides, and of the form to start with. -/
def remainders (start : SymbolId) : Set Form :=
  {u | u <:+ [start] ∨ ∃ lhs rhs, rule lhs rhs ∧ u <:+ rhs}

def RightLinearRules : Prop :=
  ∀ lhs rhs, rule lhs rhs → ¬terminal lhs ∧ ∀ a ∈ rhs.dropLast, terminal a

variable {terminal rule name} {start lhs a : SymbolId} {u v w rhs : Form}

theorem finite_remainders (hrule : {rhs | ∃ lhs, rule lhs rhs}.Finite) :
    (remainders rule start).Finite := by
  have hends : ∀ v : Form, {u : Form | u <:+ v}.Finite := fun v =>
    (List.finite_toSet v.tails).subset fun u hu => (List.mem_tails u v).2 hu
  have hunion : remainders rule start =
      {u | u <:+ [start]} ∪ ⋃ rhs ∈ {rhs | ∃ lhs, rule lhs rhs}, {u | u <:+ rhs} := by
    ext u
    simp only [remainders, Set.mem_ofPred_eq, Set.mem_union, Set.mem_iUnion, exists_prop]
    refine or_congr_right ⟨?_, ?_⟩
    · rintro ⟨lhs, rhs, hlhs, hu⟩
      exact ⟨rhs, ⟨lhs, hlhs⟩, hu⟩
    · rintro ⟨rhs, ⟨lhs, hlhs⟩, hu⟩
      exact ⟨lhs, rhs, hlhs, hu⟩
  rw [hunion]
  exact (hends _).union (hrule.biUnion fun rhs _ => hends rhs)

theorem mem_remainders_of_suffix (hu : u ∈ remainders rule start) (hv : v <:+ u) :
    v ∈ remainders rule start := by
  rcases hu with hu | ⟨lhs, rhs, hrule, hu⟩
  · exact Or.inl (hv.trans hu)
  · exact Or.inr ⟨lhs, rhs, hrule, hv.trans hu⟩

theorem RightLinearRules.eq_nil (h : RightLinearRules terminal rule)
    (hu : lhs :: u ∈ remainders rule start) (hlhs : rule lhs rhs) : u = [] := by
  rcases hu with hu | ⟨lhs', rhs', hrule, x, rfl⟩
  · exact List.length_eq_zero_iff.1 (Nat.le_zero.1 (Nat.le_of_succ_le_succ hu.length_le))
  · by_contra hne
    have hmem : lhs ∈ (x ++ lhs :: u).dropLast := by
      rw [List.dropLast_append_of_ne_nil (List.cons_ne_nil _ _), List.dropLast_cons_of_ne_nil hne]
      exact List.mem_append_right _ List.mem_cons_self
    exact (h lhs rhs hlhs).1 ((h lhs' _ hrule).2 lhs hmem)

/-- What a remainder expands to is read up to any place, where another remainder is left. -/
theorem RightLinearRules.exists_remainder (h : RightLinearRules terminal rule)
    (hw : Expands terminal rule u (v ++ w)) (hu : u ∈ remainders rule start) :
    ∃ r ∈ remainders rule start, Expands terminal rule r w ∧
      ∀ w', Expands terminal rule r w' → Expands terminal rule u (v ++ w') := by
  generalize hvw : v ++ w = x at hw
  induction hw generalizing v with
  | nil =>
    obtain ⟨rfl, rfl⟩ := List.append_eq_nil_iff.1 hvw
    exact ⟨[], hu, .nil, fun w' hw' => hw'⟩
  | @terminal a u x ha hx ih =>
    cases v with
    | nil =>
      obtain rfl : w = a :: x := hvw
      exact ⟨a :: u, hu, .terminal ha hx, fun w' hw' => hw'⟩
    | cons b v =>
      obtain ⟨rfl, rfl⟩ := List.cons.inj hvw
      obtain ⟨r, hr, hw, hread⟩ := ih (mem_remainders_of_suffix hu (List.suffix_cons b u)) rfl
      exact ⟨r, hr, hw, fun w' hw' => .terminal ha (hread w' hw')⟩
  | @expand lhs rhs u x y hlhs _ hy ih _ =>
    obtain rfl := h.eq_nil hu hlhs
    obtain rfl := expands_nil_iff.1 hy
    rw [List.append_nil] at hvw
    obtain ⟨r, hr, hw, hread⟩ := ih (Or.inr ⟨lhs, rhs, hlhs, List.suffix_refl rhs⟩) hvw
    exact ⟨r, hr, hw, fun w' hw' => .of_rule hlhs (hread w' hw')⟩

/-- The remainders that may be left after some names have been read. -/
def remaindersAfter (terminal : SymbolId → Prop) (rule : SymbolId → Form → Prop)
    (name : SymbolId → Option String) (start : SymbolId) (x : List String) : Set Form :=
  {r ∈ remainders rule start | ∃ v : Form, v.map name = x.map some ∧
    ∀ w, Expands terminal rule r w → Expands terminal rule [start] (v ++ w)}

theorem RightLinearRules.leftQuotient_spelled (h : RightLinearRules terminal rule)
    (x : List String) : (spelled terminal rule name [start]).leftQuotient x =
      {y | ∃ r ∈ remaindersAfter terminal rule name start x, y ∈ spelled terminal rule name r} := by
  ext y
  constructor
  · rintro ⟨word, hword, hname⟩
    rw [List.map_append] at hname
    obtain ⟨v, w, rfl, hv, hw⟩ := List.map_eq_append_iff.1 hname
    obtain ⟨r, hr, hexpands, hread⟩ := h.exists_remainder hword (Or.inl (List.suffix_refl _))
    exact ⟨r, ⟨hr, v, hv, hread⟩, w, hexpands, hw⟩
  · rintro ⟨r, ⟨-, v, hv, hread⟩, w, hexpands, hw⟩
    refine ⟨v ++ w, hread w hexpands, ?_⟩
    rw [List.map_append, hv, hw, List.map_append]

/-- Finitely many right-linear rules generate a regular language. -/
theorem RightLinearRules.isRegular_spelled (h : RightLinearRules terminal rule)
    (hrule : {rhs | ∃ lhs, rule lhs rhs}.Finite) :
    (spelled terminal rule name [start]).IsRegular := by
  apply Language.IsRegular.of_finite_range_leftQuotient
  have hfinite : (remainders rule start).Finite := finite_remainders hrule
  refine (hfinite.powerset.image fun s : Set Form =>
    ({y | ∃ r ∈ s, y ∈ spelled terminal rule name r} : Language String)).subset ?_
  rintro _ ⟨x, rfl⟩
  refine ⟨remaindersAfter terminal rule name start x, fun r hr => hr.1, ?_⟩
  exact (h.leftQuotient_spelled x).symm

theorem Expands.reverse (h : Expands terminal rule u w) :
    Expands terminal (fun lhs rhs => rule lhs rhs.reverse) u.reverse w.reverse := by
  induction h with
  | nil => exact .nil
  | terminal ha _ ih =>
    rw [List.reverse_cons, List.reverse_cons]
    exact ih.append (.terminal ha .nil)
  | @expand lhs rhs u v w hrule _ _ ih ih' =>
    rw [List.reverse_cons, List.reverse_append]
    refine ih'.append (.of_rule ?_ ih)
    rwa [List.reverse_reverse]

theorem spelled_reverse : (spelled terminal rule name u).reverse =
    spelled terminal (fun lhs rhs => rule lhs rhs.reverse) name u.reverse := by
  have hname : ∀ {word : Form} {w : List String},
      word.map name = w.map some → word.reverse.map name = w.reverse.map some := by
    intro word w h
    rw [List.map_reverse, List.map_reverse, h]
  ext w
  rw [Language.mem_reverse]
  constructor
  · rintro ⟨word, hword, hw⟩
    exact ⟨word.reverse, hword.reverse, w.reverse_reverse ▸ hname hw⟩
  · rintro ⟨word, hword, hw⟩
    have hback := hword.reverse
    simp only [List.reverse_reverse] at hback
    exact ⟨word.reverse, hback, hname hw⟩

def LeftLinearRules (terminal : SymbolId → Prop) (rule : SymbolId → Form → Prop) : Prop :=
  ∀ lhs rhs, rule lhs rhs → ¬terminal lhs ∧ ∀ a ∈ rhs.tail, terminal a

theorem LeftLinearRules.reverse (h : LeftLinearRules terminal rule) :
    RightLinearRules terminal fun lhs rhs => rule lhs rhs.reverse := by
  intro lhs rhs hrule
  refine ⟨(h lhs _ hrule).1, fun a ha => (h lhs _ hrule).2 a ?_⟩
  rw [List.tail_reverse]
  exact List.mem_reverse.2 ha

theorem LeftLinearRules.isRegular_spelled (h : LeftLinearRules terminal rule)
    (hrule : {rhs | ∃ lhs, rule lhs rhs}.Finite) :
    (spelled terminal rule name [start]).IsRegular := by
  rw [← Language.isRegular_reverse_iff, spelled_reverse, List.reverse_singleton]
  refine h.reverse.isRegular_spelled ((hrule.image List.reverse).subset ?_)
  rintro rhs ⟨lhs, hlhs⟩
  exact ⟨rhs.reverse, ⟨lhs, hlhs⟩, rhs.reverse_reverse⟩

end Rules

namespace Grammar

variable {g : Grammar} {w : List String}

def language (g : Grammar) : Language String := {w | g.Generates w}

theorem language_eq_spelled : g.language = spelled (fun s => g.isTerminal s)
    (fun lhs rhs => rhs ∈ g.alternatives lhs) g.symbols.name? [g.start] := by
  ext w
  exact generatesFrom_iff

theorem finite_alternatives : {rhs | ∃ lhs, rhs ∈ g.alternatives lhs}.Finite := by
  refine (List.finite_toSet (g.rules.map Prod.snd)).subset ?_
  rintro rhs ⟨lhs, hrhs⟩
  exact List.mem_map.2 ⟨(lhs, rhs), mem_rules.2 hrhs, rfl⟩

theorem Consistent.linear_of_classify (hg : g.Consistent) (h : g.classify = .regular) :
    RightLinearRules (fun s => g.isTerminal s) (fun lhs rhs => rhs ∈ g.alternatives lhs) ∨
      LeftLinearRules (fun s => g.isTerminal s) fun lhs rhs => rhs ∈ g.alternatives lhs := by
  have hlhs : ∀ {lhs rhs}, rhs ∈ g.alternatives lhs → ¬g.isTerminal lhs := fun hrhs =>
    hg.not_isTerminal_lhs hrhs
  have hlinear : (∀ rule ∈ g.rules, g.symbols.isRightLinear rule.2) ∨
      ∀ rule ∈ g.rules, g.symbols.isLeftLinear rule.2 := by
    unfold classify SymbolTable.classify at h
    split at h
    · split at h
      · next hlinear =>
        simpa only [Bool.or_eq_true, List.all_map, List.all_eq_true, Function.comp_apply]
          using hlinear
      · cases h
    · split at h <;> cases h
  refine hlinear.imp (fun hall lhs rhs hrhs => ⟨hlhs hrhs, ?_⟩) fun hall lhs rhs hrhs =>
    ⟨hlhs hrhs, ?_⟩
  · exact List.all_eq_true.1 (hall (lhs, rhs) (mem_rules.2 hrhs))
  · exact List.all_eq_true.1 (hall (lhs, rhs) (mem_rules.2 hrhs))

theorem Consistent.isRegular_language (hg : g.Consistent) (h : g.classify = .regular) :
    g.language.IsRegular := by
  rw [language_eq_spelled]
  rcases hg.linear_of_classify h with hright | hleft
  · exact hright.isRegular_spelled finite_alternatives
  · exact hleft.isRegular_spelled finite_alternatives

theorem Consistent.mem_terminalNames (hg : g.Consistent) (hw : g.Generates w) :
    ∀ x ∈ w, x ∈ OrderedSet.ofList (g.terminals.toList.map g.name) := by
  intro x hx
  obtain ⟨word, hword, hname⟩ := generatesFrom_iff.1 hw
  obtain ⟨a, ha, hax⟩ := List.mem_map.1 (hname ▸ List.mem_map_of_mem hx : some x ∈ word.map _)
  have hterminal := hword.forall_terminal a ha
  rw [OrderedSet.mem_ofList]
  refine List.mem_map.2 ⟨a, ?_, by rw [name, SymbolTable.name, hax, Option.getD_some]⟩
  have hnonterminal : a ∉ g.nonterminals := fun hmem =>
    hg.not_isTerminal_of_mem hmem hterminal
  rcases hword.mem_or_exists_rule ha with hstart | ⟨lhs, rhs, hrhs, hmem⟩
  · exact absurd (List.mem_singleton.1 hstart ▸ hg.start_mem) hnonterminal
  · exact (hg.symbol_mem hrhs a hmem).resolve_left hnonterminal

/-- A grammar of type 3 generates the language of a finite automaton. -/
theorem exists_accepts_iff_generates (hg : g.Obtainable) (h : g.classify = .regular) :
    ∃ a : Automaton, a.WellFormed ∧ a.isDeterministic ∧
      a.alphabet = .ofList (g.terminals.toList.map g.name) ∧
      ∀ w, a.accepts w ↔ g.Generates w :=
  Automaton.exists_accepts_iff_of_isRegular (hg.consistent.isRegular_language h) fun _ hw =>
    hg.consistent.mem_terminalNames hw

theorem classify_leftLinear :
    (Grammar.parse "S -> S a b | A | ε
A -> B c
B -> A | d").map classify = .ok .regular := by
  decide +kernel

/-- Left-linear rules with unit productions, and more than one terminal at a time. -/
theorem exists_accepts_iff_generates_leftLinear : ∃ g,
    Grammar.parse "S -> S a b | A | ε
A -> B c
B -> A | d" = .ok g ∧ g.classify = .regular ∧
      ∃ a : Automaton, a.WellFormed ∧ ∀ w, a.accepts w ↔ g.Generates w := by
  obtain ⟨g, hg, hclass⟩ := map_eq_ok_iff.1 classify_leftLinear
  obtain ⟨a, hwf, -, -, haccepts⟩ := exists_accepts_iff_generates (.parse hg) hclass
  exact ⟨g, hg, hclass, a, hwf, haccepts⟩

end Grammar
end Chomsky
