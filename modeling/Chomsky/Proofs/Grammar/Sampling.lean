import Chomsky.Grammar.Sampling
import Chomsky.Proofs.Grammar.Leftmost
import Chomsky.Proofs.Obtainable
import Mathlib

/-! # What sampling yields

A sample is a leftmost derivation whose alternatives a source chooses (`sample_eq_ok_iff`). So the
samples within a budget are the words of derivations of at most so many steps (`exists_sample_iff`),
and a budget that suffices leaves no trace in the outcome (`exists_forall_sample_eq`).
-/

namespace Chomsky.Grammar

universe u

variable {σ : Type u} {g : Grammar} {choose : Nat → σ → Nat × σ} {source source' : σ}
  {limits : SamplingLimits} {limit fuel n : Nat} {a lhs : SymbolId}
  {emitted pending v w : Form}

/-- The source answers one request after the other, each for a number below a bound, with the
numbers listed beside the bounds. -/
def Answers (choose : Nat → σ → Nat × σ) : σ → List (Nat × Nat) → Prop
  | _, [] => True
  | source, (bound, i) :: requests =>
    (choose bound source).1 = i ∧ Answers choose (choose bound source).2 requests

/-- Choices stay below the bound, and every sequence of choices that do is that of some source. -/
structure ChoosesFreely (choose : Nat → σ → Nat × σ) : Prop where
  below : ∀ bound source, 0 < bound → (choose bound source).1 < bound
  every : ∀ requests : List (Nat × Nat), (∀ request ∈ requests, request.2 < request.1) →
    ∃ source, Answers choose source requests

/-- The same choices, with their number beside the source. -/
def counting (choose : Nat → σ → Nat × σ) (bound : Nat) (state : σ × Nat) : Nat × σ × Nat :=
  ((choose bound state.1).1, (choose bound state.1).2, state.2 + 1)

/-- A source leads from a form to a word, by so many choices that expand the leftmost nonterminal,
and is left in another state. -/
inductive SamplesIn (g : Grammar) (choose : Nat → σ → Nat × σ) :
    Nat → Form → σ → Form → σ → Prop
  | nil (source : σ) : SamplesIn g choose 0 [] source [] source
  | emit {n : Nat} {a : SymbolId} {u w : Form} {source source' : σ}
      (ha : ¬g.symbols.isNonterminal a) (hu : SamplesIn g choose n u source w source') :
      SamplesIn g choose n (a :: u) source (a :: w) source'
  | expand {n : Nat} {lhs : SymbolId} {u w : Form} {source source' : σ}
      (hlhs : g.symbols.isNonterminal lhs) (halts : g.alternatives lhs ≠ [])
      (hu : SamplesIn g choose n
        ((g.alternatives lhs).getD (choose (g.alternatives lhs).length source).1 [] ++ u)
        (choose (g.alternatives lhs).length source).2 w source') :
      SamplesIn g choose (n + 1) (lhs :: u) source w source'

theorem expandLeftmost_nil :
    g.expandLeftmost choose limit fuel emitted [] source = (.ok emitted.reverse, source) := by
  simp [expandLeftmost]

theorem expandLeftmost_emit (ha : ¬g.symbols.isNonterminal a) :
    g.expandLeftmost choose limit fuel emitted (a :: pending) source =
      g.expandLeftmost choose limit fuel (a :: emitted) pending source := by
  rw [expandLeftmost, expandLeftmost]
  simp only [List.dropWhile_cons, List.takeWhile_cons, Bool.eq_false_iff.2 ha, Bool.not_false,
    if_true, List.reverse_cons, List.append_assoc, List.singleton_append]

theorem expandLeftmost_zero (hlhs : g.symbols.isNonterminal lhs) :
    g.expandLeftmost choose limit 0 emitted (lhs :: pending) source =
      (.error (.budgetExceeded limit), source) := by
  simp [expandLeftmost, hlhs]

theorem expandLeftmost_of_alternatives_nil (hlhs : g.symbols.isNonterminal lhs)
    (halts : g.alternatives lhs = []) :
    g.expandLeftmost choose limit (fuel + 1) emitted (lhs :: pending) source =
      (.error (.noProductions (g.name lhs)), source) := by
  simp [expandLeftmost, hlhs, halts]

theorem expandLeftmost_succ (hlhs : g.symbols.isNonterminal lhs)
    (halts : g.alternatives lhs ≠ []) :
    g.expandLeftmost choose limit (fuel + 1) emitted (lhs :: pending) source =
      g.expandLeftmost choose limit fuel emitted
        ((g.alternatives lhs).getD (choose (g.alternatives lhs).length source).1 [] ++ pending)
        (choose (g.alternatives lhs).length source).2 := by
  rw [expandLeftmost]
  simp only [List.dropWhile_cons, List.takeWhile_cons, hlhs, Bool.not_true, Bool.false_eq_true,
    if_false]
  rfl

theorem SamplesIn.expandLeftmost_eq (h : g.SamplesIn choose n pending source w source')
    (hn : n ≤ fuel) : g.expandLeftmost choose limit fuel emitted pending source =
      (.ok (emitted.reverse ++ w), source') := by
  induction h generalizing fuel emitted with
  | nil source => rw [expandLeftmost_nil, List.append_nil]
  | emit ha _ ih => rw [expandLeftmost_emit ha, ih hn, List.reverse_cons, List.append_assoc]; rfl
  | expand hlhs halts _ ih =>
    obtain ⟨fuel, rfl⟩ := Nat.exists_eq_add_of_lt hn
    rw [expandLeftmost_succ hlhs halts, ih (Nat.le_add_right _ _)]

theorem samplesIn_of_expandLeftmost
    (h : g.expandLeftmost choose limit fuel emitted pending source = (.ok v, source')) :
    ∃ n ≤ fuel, ∃ w, v = emitted.reverse ++ w ∧ g.SamplesIn choose n pending source w source' := by
  induction fuel using Nat.strong_induction_on generalizing emitted pending source with
  | _ fuel ihfuel =>
    induction pending generalizing emitted with
    | nil =>
      rw [expandLeftmost_nil] at h
      cases h
      exact ⟨0, Nat.zero_le fuel, [], (List.append_nil _).symm, .nil _⟩
    | cons a pending ih =>
      by_cases ha : g.symbols.isNonterminal a
      · cases fuel with
        | zero =>
          rw [expandLeftmost_zero ha] at h
          cases h
        | succ fuel =>
          by_cases halts : g.alternatives a = []
          · rw [expandLeftmost_of_alternatives_nil ha halts] at h
            cases h
          · rw [expandLeftmost_succ ha halts] at h
            obtain ⟨n, hn, w, rfl, hw⟩ := ihfuel fuel (Nat.lt_succ_self fuel) h
            exact ⟨n + 1, Nat.succ_le_succ hn, w, rfl, .expand ha halts hw⟩
      · rw [expandLeftmost_emit ha] at h
        obtain ⟨n, hn, w, rfl, hw⟩ := ih h
        exact ⟨n, hn, a :: w, by simp, .emit ha hw⟩

/-- A run ends with a word if and only if the budget allows for the choices on the way. -/
theorem sample_eq_ok_iff : g.sample choose limits source = (.ok w, source') ↔
    ∃ n ≤ limits.maxSteps, g.SamplesIn choose n [g.start] source w source' := by
  constructor
  · intro h
    obtain ⟨n, hn, word, rfl, hword⟩ := samplesIn_of_expandLeftmost h
    exact ⟨n, hn, hword⟩
  · rintro ⟨n, hn, h⟩
    exact h.expandLeftmost_eq hn

theorem SamplesIn.counting (h : g.SamplesIn choose n pending source w source') (count : Nat) :
    g.SamplesIn (counting choose) n pending (source, count) w (source', count + n) := by
  induction h generalizing count with
  | nil source => exact .nil _
  | emit ha _ ih => exact .emit ha (ih count)
  | @expand n lhs u w source source' hlhs halts _ ih =>
    refine .expand hlhs halts ?_
    rw [← Nat.add_assoc, Nat.add_right_comm]
    exact ih (count + 1)

/-- A sample is a derivation, if the choices are in range. -/
theorem SamplesIn.leftmostIn (hbelow : ∀ bound source, 0 < bound → (choose bound source).1 < bound)
    (hw : ∀ a ∈ w, g.isTerminal a) (h : g.SamplesIn choose n pending source w source') :
    g.LeftmostIn n pending w := by
  induction h with
  | nil => exact .nil
  | emit _ _ ih =>
    obtain ⟨ha, hw⟩ := List.forall_mem_cons.1 hw
    exact .terminal ha (ih hw)
  | @expand n lhs u w source source' _ halts _ ih =>
    have hlt := hbelow _ source (List.length_pos_iff.2 halts)
    refine .expand ?_ (ih hw)
    rw [List.getD_eq_getElem?_getD, List.getElem?_eq_getElem hlt, Option.getD_some]
    exact List.getElem_mem hlt

/-- A derivation is a sample from every source that answers with the right choices. -/
theorem Consistent.exists_answers (hg : g.Consistent) (h : g.LeftmostIn n pending w) :
    ∃ requests : List (Nat × Nat), (∀ request ∈ requests, request.2 < request.1) ∧
      ∀ source, Answers choose source requests →
        ∃ source', g.SamplesIn choose n pending source w source' := by
  induction h with
  | nil => exact ⟨[], nofun, fun source _ => ⟨source, .nil source⟩⟩
  | @terminal n a u w ha _ ih =>
    obtain ⟨requests, hrequests, hsamples⟩ := ih
    refine ⟨requests, hrequests, fun source hsource => ?_⟩
    obtain ⟨source', hw⟩ := hsamples source hsource
    have hnot : ¬g.symbols.isNonterminal a := fun hnonterminal =>
      SymbolTable.not_isTerminal_of_isNonterminal hnonterminal ha
    exact ⟨source', .emit hnot hw⟩
  | @expand n lhs rhs u w hrhs _ ih =>
    obtain ⟨requests, hrequests, hsamples⟩ := ih
    obtain ⟨i, hi, rfl⟩ := List.getElem_of_mem hrhs
    refine ⟨((g.alternatives lhs).length, i) :: requests,
      List.forall_mem_cons.2 ⟨hi, hrequests⟩, fun source ⟨hchoice, hsource⟩ => ?_⟩
    obtain ⟨source', hw⟩ := hsamples _ hsource
    refine ⟨source', .expand (hg.isNonterminal_lhs hrhs) (List.ne_nil_of_mem hrhs) ?_⟩
    rw [hchoice, List.getD_eq_getElem?_getD, List.getElem?_eq_getElem hi, Option.getD_some]
    exact hw

theorem exists_sample_iff (hg : g.Consistent) (hchoose : ChoosesFreely choose)
    (hw : ∀ a ∈ w, g.isTerminal a) : (∃ source, (g.sample choose limits source).1 = .ok w) ↔
      ∃ n ≤ limits.maxSteps, g.DerivesIn n [g.start] w := by
  constructor
  · rintro ⟨source, h⟩
    obtain ⟨n, hn, hsamples⟩ := sample_eq_ok_iff.1 (Prod.ext h rfl)
    exact ⟨n, hn, (leftmostIn_iff.1 (hsamples.leftmostIn hchoose.below hw)).1⟩
  · rintro ⟨n, hn, h⟩
    obtain ⟨requests, hrequests, hsamples⟩ := hg.exists_answers (leftmostIn_iff.2 ⟨h, hw⟩)
    obtain ⟨source, hsource⟩ := hchoose.every requests hrequests
    obtain ⟨source', hsamples⟩ := hsamples source hsource
    exact ⟨source, congrArg Prod.fst (sample_eq_ok_iff.2 ⟨n, hn, hsamples⟩)⟩

/-- A larger budget changes neither the word nor the choices. -/
theorem exists_forall_sample_eq (h : (g.sample choose limits source).1 = .ok w) :
    ∃ source' count, ∀ k, limits.maxSteps ≤ k → g.sample choose ⟨k⟩ source = (.ok w, source') ∧
      g.sample (counting choose) ⟨k⟩ (source, 0) = (.ok w, source', count) := by
  obtain ⟨n, hn, hsamples⟩ := sample_eq_ok_iff.1 (Prod.ext h rfl)
  refine ⟨(g.sample choose limits source).2, n, fun k hk => ⟨?_, ?_⟩⟩
  · exact sample_eq_ok_iff.2 ⟨n, hn.trans hk, hsamples⟩
  · have hcount := hsamples.counting 0
    rw [Nat.zero_add] at hcount
    exact sample_eq_ok_iff.2 ⟨n, hn.trans hk, hcount⟩

/-- Within a budget, the words that can be sampled are those of derivations of at most so many
steps. What a source yields within a budget, it yields by as many choices within every larger
one. -/
theorem sample_spec (hg : g.Obtainable) (hchoose : ChoosesFreely choose) (limits : SamplingLimits) :
    (∀ w, (∀ a ∈ w, g.isTerminal a) →
      ((∃ source, (g.sample choose limits source).1 = .ok w) ↔
        ∃ n ≤ limits.maxSteps, g.DerivesIn n [g.start] w)) ∧
    ∀ source w, (g.sample choose limits source).1 = .ok w →
      ∃ source' count, ∀ k, limits.maxSteps ≤ k →
        g.sample choose ⟨k⟩ source = (.ok w, source') ∧
          g.sample (counting choose) ⟨k⟩ (source, 0) = (.ok w, source', count) :=
  ⟨fun _ => exists_sample_iff hg.consistent hchoose, fun _ _ => exists_forall_sample_eq⟩

def nextOfList (bound : Nat) : List Nat → Nat × List Nat
  | [] => (0, [])
  | i :: rest => (i % bound, rest)

theorem choosesFreely_nextOfList : ChoosesFreely nextOfList where
  below bound source hbound := by
    cases source with
    | nil => exact hbound
    | cons i rest => exact Nat.mod_lt i hbound
  every requests h := by
    refine ⟨requests.map Prod.snd, ?_⟩
    induction requests with
    | nil => trivial
    | cons request requests ih =>
      obtain ⟨hlt, h⟩ := List.forall_mem_cons.1 h
      exact ⟨Nat.mod_eq_of_lt hlt, ih h⟩

theorem sample_brackets : (Grammar.parse "S -> a S b | ε").bind (fun g =>
    (g.sample nextOfList ⟨2⟩ [0, 1]).1.map fun w =>
      (w, w.all g.isTerminal, (g.sample (counting nextOfList) ⟨2⟩ ([0, 1], 0)).2.2)) =
      .ok ([1, 2], true, 2) := by
  decide +kernel

/-- Two steps derive the word `a b`, and any budget from two on yields it by two choices. -/
theorem sample_spec_brackets : ∃ g, Grammar.parse "S -> a S b | ε" = .ok g ∧
    ChoosesFreely nextOfList ∧ (∃ n ≤ 2, g.DerivesIn n [g.start] [1, 2]) ∧
      ∃ source', ∀ k, 2 ≤ k → g.sample (counting nextOfList) ⟨k⟩ ([0, 1], 0) =
        (.ok [1, 2], source', 2) := by
  obtain ⟨g, hg, h⟩ := bind_eq_ok_iff.1 sample_brackets
  obtain ⟨w, hw, heq⟩ := map_eq_ok_iff.1 h
  obtain ⟨rfl, heq⟩ := Prod.mk.inj heq
  obtain ⟨hterminal, htwo⟩ := Prod.mk.inj heq
  obtain ⟨hiff, hlarger⟩ := sample_spec (.parse hg) choosesFreely_nextOfList ⟨2⟩
  obtain ⟨source', count, hcount⟩ := hlarger _ _ hw
  obtain rfl : count = 2 := by
    rw [← htwo, (hcount 2 (Nat.le_refl 2)).2]
  exact ⟨g, hg, choosesFreely_nextOfList, (hiff _ (List.all_eq_true.1 hterminal)).1 ⟨_, hw⟩,
    source', fun k hk => (hcount k hk).2⟩

end Chomsky.Grammar
