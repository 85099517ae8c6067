import Chomsky.Grammar.Hierarchy

/-! # Types of growing rule sets

What a type demands of rules it demands of each of them, in view of the first rule and of all
right-hand sides (`SymbolTable.Conforms`). More rules are therefore of no more restricted type, and
neither the order nor the repetition of the rules after the first one matters (`classify_cons_le`).
-/

namespace Chomsky

namespace ChomskyType

variable {a b : ChomskyType} {free linear sensitive : Prop} [Decidable free] [Decidable linear]
  [Decidable sensitive]

theorem le_iff : a ≤ b ↔ a.number ≤ b.number := Iff.rfl

theorem le_antisymm (h : a ≤ b) (h' : b ≤ a) : a = b := by
  revert h h'
  cases a <;> cases b <;> decide

theorem le_verdict_iff : a ≤ (if free then if linear then regular else contextFree
    else if sensitive then contextSensitive else unrestricted) ↔
      match a with
      | unrestricted => True
      | contextSensitive => free ∨ sensitive
      | contextFree => free
      | regular => free ∧ linear := by
  rw [le_iff]
  by_cases hfree : free
  · by_cases hlinear : linear <;> cases a <;> simp [hfree, hlinear, number]
  · by_cases hsensitive : sensitive <;> cases a <;> simp [hfree, hsensitive, number]

end ChomskyType

namespace SymbolTable

variable {t : SymbolTable} {type : ChomskyType} {rules rules' : List GeneralRule}

/-- What rules have to satisfy for a type, or for one that is more restricted. -/
def Conforms (t : SymbolTable) (rules : List GeneralRule) : ChomskyType → Prop
  | .unrestricted => True
  | .contextSensitive => (∀ r ∈ rules, t.isContextFreeRule r) ∨
      (∀ r ∈ rules, r.lhs.any t.isNonterminal) ∧ t.isNoncontracting rules
  | .contextFree => ∀ r ∈ rules, t.isContextFreeRule r
  | .regular => (∀ r ∈ rules, t.isContextFreeRule r) ∧
      ((∀ r ∈ rules, t.isRightLinear r.rhs) ∨ ∀ r ∈ rules, t.isLeftLinear r.rhs)

/-- The verdict is the most restricted type to which the rules conform. -/
theorem le_classify_iff : type ≤ t.classify rules ↔ t.Conforms rules type := by
  rw [classify, ChomskyType.le_verdict_iff]
  simp only [Bool.or_eq_true, Bool.and_eq_true, List.all_eq_true]
  cases type <;> rfl

theorem isNoncontracting_iff : t.isNoncontracting rules ↔ ∀ r ∈ rules,
    r.lhs.length ≤ r.rhs.length ∧ r.rhs ≠ [] ∨
      ∃ s ∈ t.firstHead? rules, r.rhs = [] ∧ r.lhs = [s] ∧ ∀ r' ∈ rules, s ∉ r'.rhs := by
  rw [isNoncontracting, List.all_eq_true]
  refine forall₂_congr fun r _ => ?_
  cases t.firstHead? rules <;> simp [and_assoc]

theorem firstHead?_eq (h : rules.head? = rules'.head?) :
    t.firstHead? rules = t.firstHead? rules' := by
  cases rules <;> cases rules' <;> simp_all [firstHead?]

theorem isNoncontracting_of_subset (hhead : rules.head? = rules'.head?) (hsub : rules ⊆ rules')
    (h : t.isNoncontracting rules') : t.isNoncontracting rules := by
  rw [isNoncontracting_iff] at h ⊢
  rw [firstHead?_eq hhead]
  intro r hr
  refine (h r (hsub hr)).imp_right ?_
  rintro ⟨s, hs, hrhs, hlhs, hunused⟩
  exact ⟨s, hs, hrhs, hlhs, fun r' hr' => hunused r' (hsub hr')⟩

theorem Conforms.of_subset (hhead : rules.head? = rules'.head?) (hsub : rules ⊆ rules')
    (h : t.Conforms rules' type) : t.Conforms rules type := by
  have hall : ∀ {p : GeneralRule → Prop}, (∀ r ∈ rules', p r) → ∀ r ∈ rules, p r := fun hp r hr =>
    hp r (hsub hr)
  cases type with
  | unrestricted => trivial
  | contextSensitive =>
    exact h.imp hall fun h => ⟨hall h.1, isNoncontracting_of_subset hhead hsub h.2⟩
  | contextFree => exact hall h
  | regular => exact ⟨hall h.1, h.2.imp hall hall⟩

theorem classify_le_of_subset (hhead : rules.head? = rules'.head?) (hsub : rules ⊆ rules') :
    t.classify rules' ≤ t.classify rules :=
  le_classify_iff.2 ((le_classify_iff.1 (Nat.le_refl _)).of_subset hhead hsub)

/-- Rules after the first one that are added never make a set of rules more restricted, and their
order and repetition do not matter. -/
theorem classify_cons_le (t : SymbolTable) (first : GeneralRule) {rules rules' : List GeneralRule}
    (hsub : ∀ r ∈ rules, r ∈ rules') :
    t.classify (first :: rules') ≤ t.classify (first :: rules) ∧
      ((∀ r ∈ rules', r ∈ rules) → t.classify (first :: rules') = t.classify (first :: rules)) := by
  have hle : t.classify (first :: rules') ≤ t.classify (first :: rules) :=
    classify_le_of_subset rfl (List.cons_subset_cons first hsub)
  refine ⟨hle, fun hsub' => ChomskyType.le_antisymm hle ?_⟩
  exact classify_le_of_subset rfl (List.cons_subset_cons first hsub')

/-- The start symbol `S`, the terminal `a` and the nonterminal `B`. -/
def vanishing : SymbolTable := (readRules ∅ ["S -> ε", "a B -> B a"]).2

/-- A start symbol may vanish until it occurs in a right-hand side. -/
theorem classify_cons_le_vanishing :
    let rules : List GeneralRule := [⟨[1, 2], [2, 1]⟩]
    let rules' : List GeneralRule := [⟨[2], [0, 1]⟩, ⟨[1, 2], [2, 1]⟩, ⟨[2], [0, 1]⟩]
    (∀ r ∈ rules, r ∈ rules') ∧
      vanishing.classify (⟨[0], []⟩ :: rules') ≤ vanishing.classify (⟨[0], []⟩ :: rules) ∧
      vanishing.classify (⟨[0], []⟩ :: rules') = .unrestricted ∧
      vanishing.classify (⟨[0], []⟩ :: rules) = .contextSensitive :=
  ⟨by decide, (classify_cons_le vanishing ⟨[0], []⟩ (by decide)).1, by decide +kernel,
    by decide +kernel⟩

end SymbolTable
end Chomsky
