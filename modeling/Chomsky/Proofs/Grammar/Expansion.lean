import Chomsky.Grammar.Derivation

/-! # Expansions

A form expands to a word if each of its symbols is a terminal of the word or has a right-hand side
that expands to a part of the word. These are the derivations of words (`expands_iff_derives`),
without the order of their steps. What holds of the expansions by some rules is shown from what
holds of each rule (`Expands.simulate`, `Expands.restrict`).
-/

namespace Chomsky

/-- A form expands to a word of terminals by the rules. -/
inductive Expands (terminal : SymbolId → Prop) (rule : SymbolId → Form → Prop) : Form → Form → Prop
  | nil : Expands terminal rule [] []
  | terminal {a : SymbolId} {u w : Form} (ha : terminal a) (hu : Expands terminal rule u w) :
      Expands terminal rule (a :: u) (a :: w)
  | expand {lhs : SymbolId} {rhs u v w : Form} (hrule : rule lhs rhs)
      (hrhs : Expands terminal rule rhs v) (hu : Expands terminal rule u w) :
      Expands terminal rule (lhs :: u) (v ++ w)

section Rules

variable {terminal : SymbolId → Prop} {rule rule' : SymbolId → Form → Prop}
  {s lhs : SymbolId} {rhs u v w x y : Form}

theorem expands_nil_iff : Expands terminal rule [] w ↔ w = [] := by
  constructor
  · intro h
    cases h
    rfl
  · rintro rfl
    exact .nil

theorem expands_singleton_iff : Expands terminal rule [s] w ↔
    terminal s ∧ w = [s] ∨ ∃ rhs, rule s rhs ∧ Expands terminal rule rhs w := by
  constructor
  · intro h
    cases h with
    | terminal hs hu => exact Or.inl ⟨hs, by rw [expands_nil_iff.1 hu]⟩
    | expand hrule hrhs hu =>
      rw [expands_nil_iff.1 hu, List.append_nil]
      exact Or.inr ⟨_, hrule, hrhs⟩
  · rintro (⟨hs, rfl⟩ | ⟨rhs, hrule, hrhs⟩)
    · exact .terminal hs .nil
    · exact List.append_nil w ▸ .expand hrule hrhs .nil

theorem Expands.of_rule (hrule : rule lhs rhs) (h : Expands terminal rule rhs w) :
    Expands terminal rule [lhs] w := expands_singleton_iff.2 (Or.inr ⟨rhs, hrule, h⟩)

theorem Expands.exists_rule (h : Expands terminal rule [s] w) (hs : ¬terminal s) :
    ∃ rhs, rule s rhs ∧ Expands terminal rule rhs w :=
  (expands_singleton_iff.1 h).resolve_left fun h => hs h.1

theorem Expands.append (h : Expands terminal rule u v) (h' : Expands terminal rule x y) :
    Expands terminal rule (u ++ x) (v ++ y) := by
  induction h with
  | nil => exact h'
  | terminal ha _ ih => exact .terminal ha ih
  | expand hrule hrhs _ _ ih =>
    rw [List.append_assoc]
    exact .expand hrule hrhs ih

theorem Expands.exists_append (h : Expands terminal rule (u ++ v) w) :
    ∃ x y, w = x ++ y ∧ Expands terminal rule u x ∧ Expands terminal rule v y := by
  induction u generalizing w with
  | nil => exact ⟨[], w, rfl, .nil, h⟩
  | cons s u ih =>
    cases h with
    | terminal hs hu =>
      obtain ⟨x, y, rfl, hx, hy⟩ := ih hu
      exact ⟨s :: x, y, rfl, .terminal hs hx, hy⟩
    | expand hrule hrhs hu =>
      obtain ⟨x, y, rfl, hx, hy⟩ := ih hu
      exact ⟨_, y, (List.append_assoc _ _ _).symm, .expand hrule hrhs hx, hy⟩

theorem Expands.forall_terminal (h : Expands terminal rule u w) : ∀ a ∈ w, terminal a := by
  induction h with
  | nil => exact nofun
  | terminal ha _ ih => exact List.forall_mem_cons.2 ⟨ha, ih⟩
  | expand _ _ _ ih ih' => exact List.forall_mem_append.2 ⟨ih, ih'⟩

theorem Expands.mem_or_exists_rule (h : Expands terminal rule u w) (hs : s ∈ w) :
    s ∈ u ∨ ∃ lhs rhs, rule lhs rhs ∧ s ∈ rhs := by
  induction h with
  | nil => cases hs
  | terminal _ _ ih =>
    rcases List.mem_cons.1 hs with rfl | hs
    · exact Or.inl List.mem_cons_self
    · exact (ih hs).imp_left (List.mem_cons_of_mem _)
  | expand hrule _ _ ih ih' =>
    rcases List.mem_append.1 hs with hs | hs
    · exact Or.inr ((ih hs).elim (fun hs => ⟨_, _, hrule, hs⟩) fun h => h)
    · exact (ih' hs).imp_left (List.mem_cons_of_mem _)

theorem Expands.of_forall_terminal (h : ∀ a ∈ w, terminal a) : Expands terminal rule w w := by
  induction w with
  | nil => exact .nil
  | cons a w ih =>
    obtain ⟨ha, h⟩ := List.forall_mem_cons.1 h
    exact .terminal ha (ih h)

/-- Rules whose left-hand sides, read as forms, expand like their right-hand sides. -/
theorem Expands.simulate (f : SymbolId → Form) (hterminal : ∀ a, terminal a → f a = [a])
    (hrule : ∀ {lhs rhs w}, rule lhs rhs → Expands terminal rule' (rhs.flatMap f) w →
      Expands terminal rule' (f lhs) w)
    (h : Expands terminal rule u w) : Expands terminal rule' (u.flatMap f) w := by
  induction h with
  | nil => exact .nil
  | terminal ha _ ih =>
    rw [List.flatMap_cons, hterminal _ ha]
    exact .terminal ha ih
  | expand h _ _ ih ih' =>
    rw [List.flatMap_cons]
    exact (hrule h ih).append ih'

theorem Expands.of_rules (hrule : ∀ {lhs rhs w}, rule lhs rhs → Expands terminal rule' rhs w →
      Expands terminal rule' [lhs] w)
    (h : Expands terminal rule u w) : Expands terminal rule' u w := by
  have hflat : ∀ v : Form, (v.flatMap fun s => [s]) = v := List.flatMap_singleton'
  rw [← hflat u]
  refine h.simulate (fun s => [s]) (fun a _ => rfl) fun hlhs hrhs => ?_
  rw [hflat] at hrhs
  exact hrule hlhs hrhs

theorem Expands.mono (hrule : ∀ {lhs rhs}, rule lhs rhs → rule' lhs rhs)
    (h : Expands terminal rule u w) : Expands terminal rule' u w :=
  h.of_rules fun hlhs hrhs => .of_rule (hrule hlhs) hrhs

/-- Symbols with a property that the rules pass on expand by rules of such symbols. -/
theorem Expands.restrict {p : SymbolId → Prop}
    (hrule : ∀ {lhs rhs}, p lhs → rule lhs rhs → ∀ s ∈ rhs, p s)
    (h : Expands terminal rule u w) (hu : ∀ s ∈ u, p s) :
    Expands terminal (fun lhs rhs => p lhs ∧ rule lhs rhs) u w := by
  induction h with
  | nil => exact .nil
  | terminal ha _ ih =>
    exact .terminal ha (ih (List.forall_mem_cons.1 hu).2)
  | expand h _ _ ih ih' =>
    obtain ⟨hlhs, hu⟩ := List.forall_mem_cons.1 hu
    exact .expand ⟨hlhs, h⟩ (ih (hrule hlhs h)) (ih' hu)

theorem Expands.eq_nil (hrule : ∀ lhs, ¬rule lhs []) (h : Expands terminal rule u []) : u = [] := by
  generalize hw : [] = w at h
  induction h with
  | nil => rfl
  | terminal => cases hw
  | expand h _ _ ih =>
    obtain ⟨hv, -⟩ := List.append_eq_nil_iff.1 hw.symm
    obtain rfl := (ih hv.symm).trans hv
    exact absurd h (hrule _)

end Rules

namespace Grammar

abbrev Expands (g : Grammar) : Form → Form → Prop :=
  Chomsky.Expands (fun s => g.isTerminal s) fun lhs rhs => rhs ∈ g.alternatives lhs

abbrev ExpandsNonempty (g : Grammar) : Form → Form → Prop :=
  Chomsky.Expands (fun s => g.isTerminal s) fun lhs rhs => rhs ∈ g.alternatives lhs ∧ rhs ≠ []

variable {g h : Grammar} {u v w : Form} {s lhs : SymbolId} {rhs : Form}

theorem exists_mem_alternatives (hterminal : ¬g.isTerminal s) (hw : g.Expands [s] w) :
    ∃ rhs, rhs ∈ g.alternatives s := by
  obtain ⟨rhs, hrhs, -⟩ := hw.exists_rule hterminal
  exact ⟨rhs, hrhs⟩

theorem Yields.expands (hy : g.Yields u v) (h : g.Expands v w) : g.Expands u w := by
  cases hy with
  | expand x y hrule =>
    obtain ⟨wxr, wy, rfl, hxr, hy⟩ := h.exists_append
    obtain ⟨wx, wr, rfl, hx, hr⟩ := hxr.exists_append
    rw [List.append_assoc]
    exact hx.append (.expand (mem_rules.1 hrule) hr hy)

theorem Derives.expands (hd : g.Derives u v) (h : g.Expands v w) : g.Expands u w := by
  induction hd with
  | refl => exact h
  | tail _ hy ih => exact ih (hy.expands h)

theorem derives_of_mem_alternatives (hrhs : rhs ∈ g.alternatives lhs) : g.Derives [lhs] rhs := by
  have hy := Yields.expand [] [] (mem_rules.2 hrhs)
  rw [List.nil_append, List.append_nil] at hy
  exact .single hy

theorem derives_of_expands (h : g.Expands u w) : g.Derives u w := by
  induction h with
  | nil => exact .refl []
  | @terminal a _ _ _ _ ih => exact ih.append_left [a]
  | @expand lhs rhs u v w hrule _ _ ih ih' =>
    exact (((derives_of_mem_alternatives hrule).trans ih).append ih' : g.Derives ([lhs] ++ u) _)

/-- Expansions are derivations of words. -/
theorem expands_iff_derives :
    g.Expands u w ↔ g.Derives u w ∧ ∀ a ∈ w, g.isTerminal a := by
  constructor
  · intro h
    exact ⟨derives_of_expands h, h.forall_terminal⟩
  · rintro ⟨hd, hw⟩
    exact hd.expands (.of_forall_terminal hw)

theorem generatesFrom_iff {names : List String} : g.GeneratesFrom s names ↔
    ∃ word, g.Expands [s] word ∧ word.map g.symbols.name? = names.map some := by
  simp only [GeneratesFrom, expands_iff_derives, and_assoc]

theorem generatesFrom_iff_of_expands {s' : SymbolId} {names : List String}
    (hname : ∀ a, g.isTerminal a → h.symbols.name? a = g.symbols.name? a)
    (hexpands : ∀ word, word.length = names.length → (g.Expands [s] word ↔ h.Expands [s'] word)) :
    g.GeneratesFrom s names ↔ h.GeneratesFrom s' names := by
  have hlength : ∀ {t : SymbolTable} {word : Form}, word.map t.name? = names.map some →
      word.length = names.length := fun heq => by simpa using congrArg List.length heq
  have hmap : ∀ word, g.Expands [s] word →
      word.map h.symbols.name? = word.map g.symbols.name? := fun word hword =>
    List.map_congr_left fun a ha => hname a (hword.forall_terminal a ha)
  rw [generatesFrom_iff, generatesFrom_iff]
  constructor
  · rintro ⟨word, hword, hnames⟩
    exact ⟨word, (hexpands word (hlength hnames)).1 hword, (hmap word hword).trans hnames⟩
  · rintro ⟨word, hword, hnames⟩
    have hword := (hexpands word (hlength hnames)).2 hword
    exact ⟨word, hword, (hmap word hword).symm.trans hnames⟩

theorem generates_iff_of_expands {names : List String}
    (hname : ∀ a, g.isTerminal a → h.symbols.name? a = g.symbols.name? a)
    (hexpands : ∀ word, g.Expands [g.start] word ↔ h.Expands [h.start] word) :
    g.Generates names ↔ h.Generates names :=
  generatesFrom_iff_of_expands hname fun word _ => hexpands word

theorem generatesFrom_iff_of_expands_nonempty {s' : SymbolId} {names : List String}
    (hnames : names ≠ []) (hname : ∀ a, g.isTerminal a → h.symbols.name? a = g.symbols.name? a)
    (hexpands : ∀ word, word ≠ [] → (g.Expands [s] word ↔ h.Expands [s'] word)) :
    g.GeneratesFrom s names ↔ h.GeneratesFrom s' names := by
  refine generatesFrom_iff_of_expands hname fun word hlength => hexpands word ?_
  rintro rfl
  exact hnames (List.length_eq_zero_iff.1 hlength.symm)

theorem ExpandsNonempty.expands (h : g.ExpandsNonempty u w) : g.Expands u w :=
  Chomsky.Expands.mono And.left h

theorem ExpandsNonempty.eq_nil (h : g.ExpandsNonempty u []) : u = [] :=
  Chomsky.Expands.eq_nil (fun _ hrule => hrule.2 rfl) h

end Grammar
end Chomsky
