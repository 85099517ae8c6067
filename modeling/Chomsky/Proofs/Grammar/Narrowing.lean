import Chomsky.Proofs.Grammar.NormalForm
import Chomsky.Proofs.Grammar.Trim

/-! # What the stages of normalization leave in place

Until a grammar is made binary, no stage adds a left-hand side or a symbol to a right-hand side, and
the start symbol stays in the first place (`Narrows`). So what is made binary is a trim grammar that
narrows the given one (`exists_trim_narrows`).
-/

namespace Chomsky

theorem OrderedMap.head?_keys_filter {κ : Type u} {ν : Type v} [Ord κ] [Std.TransOrd κ]
    [Std.LawfulEqOrd κ] {m : OrderedMap κ ν} {k : κ} {p : κ → ν → Bool}
    (h : m.keys.head? = some k) (hp : ∀ v, p k v) : (m.filter p).keys.head? = some k := by
  rw [keys, List.head?_map] at h
  obtain ⟨⟨k, v⟩, hentry, rfl⟩ := Option.map_eq_some_iff.1 h
  obtain ⟨rest, hentries⟩ := List.head?_eq_some_iff.1 hentry
  rw [keys, entries_filter, hentries, List.filter_cons, if_pos (hp v)]
  rfl

theorem OrderedMap.mem_keys_of_filter {κ : Type u} {ν : Type v} [Ord κ] [Std.TransOrd κ]
    [Std.LawfulEqOrd κ] {m : OrderedMap κ ν} {k : κ} {p : κ → ν → Bool}
    (h : k ∈ (m.filter p).keys) : k ∈ m.keys := by
  obtain ⟨v, hget⟩ := mem_keys_iff.1 h
  exact mem_keys_iff.2 ⟨v, (get?_filter_eq_some_iff.1 hget).1⟩

namespace Grammar

variable {g h u : Grammar} {lhs s : SymbolId} {rhs w : Form} {ps : Productions}

/-- A grammar without symbols that another one does not use, whose start symbol stays first. -/
structure Narrows (u g : Grammar) : Prop where
  symbols : u.symbols = g.symbols
  start : u.start = g.start
  key : ∀ lhs ∈ u.productions.keys, lhs ∈ g.productions.keys
  right : ∀ s, u.occursOnRight s → g.occursOnRight s
  head : g.productions.keys.head? = some g.start → u.productions.keys.head? = some u.start

theorem Narrows.trans (h₁ : Narrows h u) (h₂ : Narrows u g) : Narrows h g where
  symbols := h₁.symbols.trans h₂.symbols
  start := h₁.start.trans h₂.start
  key lhs hlhs := h₂.key lhs (h₁.key lhs hlhs)
  right s hs := h₂.right s (h₁.right s hs)
  head hg := h₁.head (h₂.head hg)

theorem head?_of_isPrefix {l l' : List SymbolId} (h : l <+: l') (hhead : l.head? = some s) :
    l'.head? = some s := by
  obtain ⟨rest, rfl⟩ := h
  rw [List.head?_append, hhead, Option.some_or]

theorem narrows_eliminateEpsilon (g : Grammar) : Narrows g.eliminateEpsilon g where
  symbols := rfl
  start := rfl
  key lhs hlhs := by
    rcases mem_keys_eliminateEpsilon_iff.1 hlhs with ⟨rhs, hrhs⟩ | ⟨-, hkey⟩
    · rcases mem_alternatives_eliminateEpsilon_iff.1 hrhs with ⟨-, alt, halt, -⟩ | ⟨-, rfl, hstart⟩
      · exact Productions.mem_keys_of_mem_alternatives halt
      · exact Productions.mem_keys_of_mem_closure hstart
    · exact hkey
  right s hs := by
    obtain ⟨lhs, rhs, hrhs, hs⟩ := occursOnRight_iff.1 hs
    rcases mem_alternatives_eliminateEpsilon_iff.1 hrhs with ⟨-, alt, halt, hrhs⟩ | ⟨rfl, -⟩
    · exact occursOnRight_iff.2 ⟨lhs, alt, halt, (sublist_of_mem_variants hrhs).subset hs⟩
    · cases hs
  head hstart := by
    have hkept : g.nonemptyProductions.keys.head? = some g.start := by
      refine OrderedMap.head?_keys_filter ?_ fun v => by simp
      rwa [OrderedMap.keys_mapValues]
    rw [productions_eliminateEpsilon]
    split
    · exact head?_of_isPrefix (Productions.keys_isPrefix_add _ _ _) hkept
    · exact hkept

theorem narrows_eliminateUnits (h : g.eliminateUnits = .ok u) : Narrows u g := by
  obtain ⟨ps, fuel, hps, rfl⟩ := eliminateUnits_eq_ok h
  have hkeys := keys_eliminateUnits h
  refine ⟨rfl, rfl, fun lhs hlhs => hkeys ▸ hlhs, fun s hs => ?_, fun hstart => ?_⟩
  · obtain ⟨lhs, rhs, hrhs, hs⟩ := occursOnRight_iff.1 hs
    obtain ⟨-, ⟨rfl, -⟩ | ⟨-, b, hchain, hrhs⟩⟩ := (mem_alternatives_eliminateUnits_iff h).1 hrhs
    · cases hs
    · exact occursOnRight_iff.2 ⟨b, rhs, hrhs, hs⟩
  · exact (congrArg List.head? hkeys).trans hstart

theorem narrows_removeUnreachable (g : Grammar) : Narrows g.removeUnreachable g where
  symbols := rfl
  start := rfl
  key lhs hlhs := OrderedMap.mem_keys_of_filter hlhs
  right s hs := by
    obtain ⟨lhs, rhs, hrhs, hs⟩ := occursOnRight_iff.1 hs
    exact occursOnRight_iff.2 ⟨lhs, rhs, (mem_alternatives_removeUnreachable_iff.1 hrhs).2, hs⟩
  head hstart := OrderedMap.head?_keys_filter hstart fun v => decide_eq_true start_mem_reachable

theorem narrows_removeNonProductive (g : Grammar) : Narrows g.removeNonProductive g where
  symbols := rfl
  start := rfl
  key lhs hlhs := by
    have hlhs : lhs ∈ (OrderedMap.mapValues _ (OrderedMap.filter _ g.productions)).keys := hlhs
    rw [OrderedMap.keys_mapValues] at hlhs
    exact OrderedMap.mem_keys_of_filter hlhs
  right s hs := by
    obtain ⟨lhs, rhs, hrhs, hs⟩ := occursOnRight_iff.1 hs
    exact occursOnRight_iff.2 ⟨lhs, rhs, (mem_alternatives_removeNonProductive_iff.1 hrhs).1, hs⟩
  head hstart := by
    show (OrderedMap.mapValues _ (OrderedMap.filter _ g.productions)).keys.head? = some g.start
    rw [OrderedMap.keys_mapValues]
    exact OrderedMap.head?_keys_filter hstart fun v => by simp

theorem narrows_trimmed (u : Grammar) : Narrows u.trimmed u :=
  (narrows_removeUnreachable _).trans
    ((narrows_removeNonProductive _).trans (narrows_removeUnreachable u))

/-- What is made binary is trim, derives the same words, and narrows the grammar. -/
theorem exists_trim_narrows {names : NormalFormNames} {n : Grammar} (hg : g.Consistent)
    (h : g.normalizeWith names = .ok n) : ∃ s, s.Consistent ∧ s.Trim ∧ s.EmptyOnlyAtStart ∧
      Narrows s g ∧ (∀ w, s.Expands [s.start] w ↔ g.Expands [g.start] w) ∧
      s.binarizeWith names = .ok n := by
  obtain ⟨u, hu, hn⟩ := normalizeWith_eq_ok h
  have hcu := hg.eliminateEpsilon.eliminateUnits hu
  exact ⟨u.trimmed, hcu.trimmed, trim_removeUnreachable hcu.removeUnreachable,
    .trimmed hcu (emptyOnlyAtStart_eliminateEpsilon.eliminateUnits hu),
    (narrows_trimmed u).trans ((narrows_eliminateUnits hu).trans (narrows_eliminateEpsilon g)),
    fun w => expands_start_trimmed_iff hg hu, hn⟩

theorem head?_keys_separateStart {t : SymbolTable} {start : SymbolId} {suffix : String}
    (hg : g.Consistent) (h : g.separateStart suffix = .ok (t, start, ps))
    (hstart : g.productions.keys.head? = some g.start) : ps.keys.head? = some start := by
  rcases separateStart_eq_ok h with ⟨-, hfresh, rfl⟩ | ⟨-, -, rfl, rfl⟩
  · have hkeys := keys_withStart (not_mem_keys_of_grows hg (SymbolTable.grows_of_fresh hfresh))
    exact (congrArg List.head? hkeys).trans rfl
  · exact hstart

theorem head?_keys_binarizeWith {names : NormalFormNames} {b : Grammar} (hg : g.Consistent)
    (h : g.binarizeWith names = .ok b) (hstart : g.productions.keys.head? = some g.start) :
    b.productions.keys.head? = some b.start := by
  obtain ⟨t, start, ps, entries, v, hseparate, hentries, rfl⟩ := binarizeWith_eq_ok h
  obtain ⟨-, hforall⟩ :=
    (separates_of_separateStart hg hseparate).invariant_binarizeEntries hentries
  refine head?_of_isPrefix (Productions.keys_isPrefix_foldl_add _ _) ?_
  rw [OrderedMap.keys, Variables.entries_ofList_of_forall₂ hforall,
    Variables.map_fst_of_forall₂ hforall]
  exact head?_keys_separateStart hg hseparate hstart

end Grammar
end Chomsky
