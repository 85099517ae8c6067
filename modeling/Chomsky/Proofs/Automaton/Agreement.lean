import Chomsky.Proofs.Data.Counterpart
import Chomsky.Proofs.Obtainable
import Mathlib

/-! # Automata that agree by number

Automata agree if they are the same by number and have the same names, in whatever order. Their
states are then the same up to names, which no run reads, and their symbols up to a renaming of the
alphabet. So they accept the same words up to this renaming only (`accepts_of_agrees`).
-/

namespace Chomsky.Automaton

variable {a b : Automaton} {p q : StateId} {i : SymbolIndex} {x : String} {w : List String}

/-- The symbol that has in the alphabet of another automaton the place of a symbol. -/
def counterpart (a b : Automaton) : String → String :=
  Chomsky.counterpart a.alphabet.toList b.alphabet.toList

section Agrees

variable (hagrees : a.agrees b)
include hagrees

theorem alphabet_perm_of_agrees : a.alphabet.toList.Perm b.alphabet.toList := by
  simp only [agrees, Bool.and_eq_true] at hagrees
  exact OrderedSet.perm_of_sameMembers hagrees.1.1.1.2

theorem targets_eq_of_agrees : a.targets = b.targets := by
  simp only [agrees, Bool.and_eq_true] at hagrees
  funext p i
  rw [targets, targets, OrderedMap.get?_eq_of_sameEntries hagrees.1.1.2]

theorem start_eq_of_agrees : a.start = b.start := by
  simp only [agrees, Bool.and_eq_true, beq_iff_eq] at hagrees
  exact hagrees.1.2

theorem accept_eq_of_agrees : a.accept = b.accept := by
  simp only [agrees, Bool.and_eq_true, beq_iff_eq] at hagrees
  exact hagrees.2

theorem counterpart_bijective : Function.Bijective (a.counterpart b) :=
  Chomsky.counterpart_bijective a.alphabet.nodup (alphabet_perm_of_agrees hagrees)

theorem symbolName?_counterpart_iff :
    b.symbolName? i = some (a.counterpart b x) ↔ a.symbolName? i = some x := by
  rw [symbolName?, symbolName?, ← OrderedSet.getElem?_toList, ← OrderedSet.getElem?_toList]
  exact getElem?_counterpart_iff a.alphabet.nodup (alphabet_perm_of_agrees hagrees)

theorem symbolIndex?_counterpart : b.symbolIndex? (a.counterpart b x) = a.symbolIndex? x := by
  refine Option.ext fun i => ?_
  rw [symbolIndex?, symbolIndex?, OrderedSet.get?_idxOf?_iff, OrderedSet.get?_idxOf?_iff]
  exact symbolName?_counterpart_iff hagrees

theorem counterpart_symbolName (hi : i < a.alphabet.size) :
    a.counterpart b (a.symbolName i) = b.symbolName i := by
  have hname := (symbolName?_counterpart_iff hagrees).2 (symbolName?_eq hi)
  rw [show b.symbolName i = (b.symbolName? i).getD "" from rfl, hname, Option.getD_some]

theorem run_map_counterpart_iff : b.Run p (w.map (a.counterpart b)) q ↔ a.Run p w q := by
  have htargets := targets_eq_of_agrees hagrees
  have hindex := fun x => symbolIndex?_counterpart (x := x) hagrees
  induction w generalizing p with
  | nil => exact ⟨fun | .nil _ => .nil _, fun | .nil _ => .nil _⟩
  | cons x w ih =>
    constructor
    · intro hrun
      cases hrun with
      | cons hi hr hrun => exact .cons (hindex x ▸ hi) (htargets ▸ hr) (ih.1 hrun)
    · intro hrun
      cases hrun with
      | cons hi hr hrun => exact .cons ((hindex x).trans hi) (htargets ▸ hr) (ih.2 hrun)

theorem accepts_map_counterpart : b.accepts (w.map (a.counterpart b)) = a.accepts w := by
  rw [Bool.eq_iff_iff, accepts_iff, accepts_iff, start_eq_of_agrees hagrees,
    accept_eq_of_agrees hagrees]
  simp only [run_map_counterpart_iff hagrees]

theorem accepts_eq_iff : (∀ w, a.accepts w = b.accepts w) ↔
    ∀ w, a.accepts (w.map (a.counterpart b)) = a.accepts w := by
  constructor
  · intro hsame w
    rw [hsame, accepts_map_counterpart hagrees]
  · intro hclosed w
    obtain ⟨w, rfl⟩ := List.map_surjective_iff.2 (counterpart_bijective hagrees).surjective w
    rw [hclosed, accepts_map_counterpart hagrees]

theorem accepts_eq_of_alphabet_eq (halphabet : a.alphabet = b.alphabet) :
    a.accepts w = b.accepts w := by
  have hself : a.counterpart b = id := by
    funext x
    rw [counterpart, ← halphabet, counterpart_self a.alphabet.nodup, id]
  rw [← accepts_map_counterpart hagrees, hself, List.map_id]

end Agrees

/-- Automata that agree accept the same words up to a renaming, the one of symbols at the same
place. So they accept the same words if and only if this renaming preserves the language of one of
them, for instance if the symbols of both are in the same order. -/
theorem accepts_of_agrees (hagrees : a.agrees b) :
    Function.Bijective (a.counterpart b) ∧
      (∀ i < a.alphabet.size, a.counterpart b (a.symbolName i) = b.symbolName i) ∧
      (∀ w, b.accepts (w.map (a.counterpart b)) = a.accepts w) ∧
      ((∀ w, a.accepts w = b.accepts w) ↔
        ∀ w, a.accepts (w.map (a.counterpart b)) = a.accepts w) ∧
      (a.alphabet = b.alphabet → ∀ w, a.accepts w = b.accepts w) :=
  ⟨counterpart_bijective hagrees, fun _ => counterpart_symbolName hagrees,
    fun _ => accepts_map_counterpart hagrees, accepts_eq_iff hagrees,
    fun halphabet _ => accepts_eq_of_alphabet_eq hagrees halphabet⟩

/-- Two states and a transition between them on the first symbol of an alphabet. -/
def firstSymbol (alphabet : List String) : AutomatonDefinition where
  alphabet := some alphabet
  transitions := (alphabet.take 1).map fun x => ("p", x, "q")
  start := some "p"
  accept := ["q"]

theorem exists_firstSymbol : ∃ a b, (firstSymbol ["a", "b"]).build = .ok a ∧
    (firstSymbol ["b", "a"]).build = .ok b ∧ a.agrees b ∧ a.accepts ["a"] ∧
      ¬b.accepts ["a"] := by
  have hall : ((firstSymbol ["a", "b"]).build.bind fun a =>
      (firstSymbol ["b", "a"]).build.map fun b =>
        (a.agrees b, a.accepts ["a"], b.accepts ["a"])) = .ok (true, true, false) := by
    cbv
  obtain ⟨a, ha, hall⟩ := bind_eq_ok_iff.1 hall
  obtain ⟨b, hb, hall⟩ := map_eq_ok_iff.1 hall
  simp only [Prod.mk.injEq] at hall
  exact ⟨a, b, ha, hb, hall.1, hall.2.1, by simp [hall.2.2]⟩

theorem accepts_of_agrees_firstSymbol : ∃ a b, (firstSymbol ["a", "b"]).build = .ok a ∧
    (firstSymbol ["b", "a"]).build = .ok b ∧ a.agrees b ∧
      b.accepts (["a"].map (a.counterpart b)) := by
  obtain ⟨a, b, ha, hb, hagrees, haccepts, -⟩ := exists_firstSymbol
  obtain ⟨-, -, hmap, -⟩ := accepts_of_agrees hagrees
  exact ⟨a, b, ha, hb, hagrees, (hmap _).trans haccepts⟩

/-- The automata have their symbols in different orders, and each accepts its first symbol only. -/
theorem agrees_firstSymbol_not_accepts : ∃ a b, (firstSymbol ["a", "b"]).build = .ok a ∧
    (firstSymbol ["b", "a"]).build = .ok b ∧ a.agrees b ∧ a.accepts ["a"] ∧ ¬b.accepts ["a"] :=
  exists_firstSymbol

end Chomsky.Automaton
