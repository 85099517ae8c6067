import Chomsky.Grammar.Basic
import Chomsky.Proofs.Symbol.Table

/-! # Consistent grammars

The sets of a consistent grammar hold symbols of their kind, and everything that the productions
mention. A grammar of productions over a table is consistent (`consistent_ofProductions`).
-/

namespace Chomsky

namespace Productions

variable {ps ps' : Productions} {t u : SymbolTable} {lhs k : SymbolId} {rhs : Form}

theorem mem_alternatives_iff :
    rhs ∈ ps.alternatives lhs ↔ ∃ alts, ps.get? lhs = some alts ∧ rhs ∈ alts := by
  unfold alternatives
  cases ps.get? lhs <;> simp

theorem mem_alternatives_iff_exists_entry :
    rhs ∈ ps.alternatives lhs ↔ ∃ alts, (lhs, alts) ∈ ps.entries ∧ rhs ∈ alts := by
  simp only [mem_alternatives_iff, OrderedMap.get?_eq_some_iff]

theorem alternatives_eq_of_mem_entries {alts : List Form} (h : (lhs, alts) ∈ ps.entries) :
    ps.alternatives lhs = alts := by
  rw [alternatives, OrderedMap.get?_eq_some_iff.2 h]
  rfl

theorem mem_alternatives_mapValues_iff {f : SymbolId → List Form → List Form} :
    rhs ∈ alternatives (OrderedMap.mapValues f ps) lhs ↔
      ∃ alts, ps.get? lhs = some alts ∧ rhs ∈ f lhs alts := by
  rw [mem_alternatives_iff, OrderedMap.get?_mapValues]
  cases ps.get? lhs <;> simp

theorem nodup_alternatives (h : ∀ alts, ps.get? lhs = some alts → alts.Nodup) :
    (ps.alternatives lhs).Nodup := by
  unfold alternatives
  cases hget : ps.get? lhs with
  | none => exact List.nodup_nil
  | some alts => exact h alts hget

theorem mem_alternatives_filter_iff {p : SymbolId → List Form → Bool} :
    rhs ∈ alternatives (OrderedMap.filter p ps) lhs ↔
      ∃ alts, ps.get? lhs = some alts ∧ p lhs alts ∧ rhs ∈ alts := by
  simp only [mem_alternatives_iff, OrderedMap.get?_filter_eq_some_iff, and_assoc]

theorem alternatives_add : (ps.add lhs rhs).alternatives k =
    if k = lhs then ps.alternatives lhs ++ [rhs] else ps.alternatives k := by
  unfold alternatives add
  rw [OrderedMap.get?_upsert]
  split <;> rfl

theorem mem_alternatives_add_iff {rhs' : Form} : rhs' ∈ (ps.add lhs rhs).alternatives k ↔
    rhs' ∈ ps.alternatives k ∨ k = lhs ∧ rhs' = rhs := by
  rw [alternatives_add]
  by_cases hk : k = lhs
  · simp [hk]
  · simp [hk]

theorem mem_keys_add_iff : k ∈ (ps.add lhs rhs).keys ↔ k ∈ ps.keys ∨ k = lhs := by
  rw [add, OrderedMap.keys_upsert]
  split
  · next h => exact ⟨Or.inl, fun hk => hk.elim (fun hk => hk) fun hk => hk ▸ h⟩
  · simp

theorem mem_keys_of_mem_alternatives (h : rhs ∈ ps.alternatives lhs) : lhs ∈ ps.keys := by
  obtain ⟨alts, hget, -⟩ := mem_alternatives_iff.1 h
  exact OrderedMap.mem_keys_iff.2 ⟨alts, hget⟩

/-- Left-hand sides and right-hand sides that a table knows. -/
structure Over (ps : Productions) (t : SymbolTable) : Prop where
  key : ∀ lhs ∈ ps.keys, t.isNonterminal lhs
  symbol_lt : ∀ {lhs rhs}, rhs ∈ ps.alternatives lhs → ∀ s ∈ rhs, s < t.size

theorem over_empty : Over ∅ t where
  key _ h := nomatch h
  symbol_lt h := nomatch h

theorem Over.add (h : ps.Over t) (hlhs : t.isNonterminal lhs) (hrhs : ∀ s ∈ rhs, s < t.size) :
    (ps.add lhs rhs).Over t where
  key k hk := by
    rcases mem_keys_add_iff.1 hk with hk | rfl
    · exact h.key k hk
    · exact hlhs
  symbol_lt hmem := by
    rcases mem_alternatives_add_iff.1 hmem with hmem | ⟨-, rfl⟩
    · exact h.symbol_lt hmem
    · exact hrhs

theorem mem_alternatives_foldl_add_iff {rules : List (SymbolId × Form)} :
    rhs ∈ (rules.foldl (fun ps (lhs, rhs) => ps.add lhs rhs) ps).alternatives lhs ↔
      rhs ∈ ps.alternatives lhs ∨ (lhs, rhs) ∈ rules := by
  induction rules generalizing ps with
  | nil => simp
  | cons rule rules ih =>
    rw [List.foldl_cons, ih, mem_alternatives_add_iff, List.mem_cons, or_assoc, Prod.ext_iff]

theorem mem_keys_foldl_add_iff {rules : List (SymbolId × Form)} :
    k ∈ OrderedMap.keys (rules.foldl (fun ps (lhs, rhs) => add ps lhs rhs) ps) ↔
      k ∈ ps.keys ∨ ∃ rhs, (k, rhs) ∈ rules := by
  induction rules generalizing ps with
  | nil => simp
  | cons rule rules ih =>
    rw [List.foldl_cons, ih, mem_keys_add_iff, or_assoc]
    refine or_congr_right ⟨?_, ?_⟩
    · rintro (rfl | ⟨rhs, hmem⟩)
      · exact ⟨rule.2, List.mem_cons_self⟩
      · exact ⟨rhs, List.mem_cons_of_mem _ hmem⟩
    · rintro ⟨rhs, hmem⟩
      rcases List.mem_cons.1 hmem with heq | hmem
      · exact Or.inl (congrArg Prod.fst heq)
      · exact Or.inr ⟨rhs, hmem⟩

theorem mem_alternatives_ofRules_iff {rules : List (SymbolId × Form)} :
    rhs ∈ (ofRules rules).alternatives lhs ↔ (lhs, rhs) ∈ rules := by
  rw [ofRules_eq, mem_alternatives_foldl_add_iff]
  exact or_iff_right List.not_mem_nil

theorem keys_isPrefix_add (ps : Productions) (lhs : SymbolId) (rhs : Form) :
    ps.keys <+: (ps.add lhs rhs).keys := by
  have hkeys := OrderedMap.keys_upsert ps lhs fun alts => alts.getD [] ++ [rhs]
  split at hkeys
  · exact hkeys ▸ List.prefix_rfl
  · exact hkeys ▸ List.prefix_append _ _

theorem keys_isPrefix_foldl_add (ps : Productions) (rules : List (SymbolId × Form)) :
    ps.keys <+: OrderedMap.keys (rules.foldl (fun ps (lhs, rhs) => add ps lhs rhs) ps) := by
  induction rules generalizing ps with
  | nil => exact List.prefix_rfl
  | cons rule rules ih => exact (keys_isPrefix_add ps rule.1 rule.2).trans (ih _)

theorem Over.foldl_add (hps : ps.Over t) {rules : List (SymbolId × Form)}
    (h : ∀ lhs rhs, (lhs, rhs) ∈ rules → t.isNonterminal lhs ∧ ∀ s ∈ rhs, s < t.size) :
    (rules.foldl (fun ps (lhs, rhs) => ps.add lhs rhs) ps).Over t := by
  induction rules generalizing ps with
  | nil => exact hps
  | cons rule rules ih =>
    obtain ⟨hlhs, hrhs⟩ := h rule.1 rule.2 List.mem_cons_self
    exact ih (hps.add hlhs hrhs) fun lhs rhs hmem => h lhs rhs (List.mem_cons_of_mem _ hmem)

theorem over_ofRules {rules : List (SymbolId × Form)}
    (h : ∀ lhs rhs, (lhs, rhs) ∈ rules → t.isNonterminal lhs ∧ ∀ s ∈ rhs, s < t.size) :
    (ofRules rules).Over t := by
  rw [ofRules_eq]
  exact over_empty.foldl_add h

theorem Over.of_mentions (h : ps.Over t) (hkeys : ∀ k ∈ ps'.keys, k ∈ ps.keys)
    (hrhs : ∀ {lhs rhs}, rhs ∈ ps'.alternatives lhs → ∀ s ∈ rhs,
      ∃ lhs' rhs', rhs' ∈ ps.alternatives lhs' ∧ s ∈ rhs') : ps'.Over t where
  key k hk := h.key k (hkeys k hk)
  symbol_lt hmem s hs := by
    obtain ⟨lhs', rhs', hmem', hs'⟩ := hrhs hmem s hs
    exact h.symbol_lt hmem' s hs'

theorem Over.filter (h : ps.Over t) (p : SymbolId → List Form → Bool) :
    Over (OrderedMap.filter p ps) t := by
  refine h.of_mentions (fun k hk => ?_) fun {lhs rhs} hmem s hs => ?_
  · obtain ⟨alts, hget⟩ := OrderedMap.mem_keys_iff.1 hk
    exact OrderedMap.mem_keys_iff.2 ⟨alts, (OrderedMap.get?_filter_eq_some_iff.1 hget).1⟩
  · obtain ⟨alts, hget, -, hrhs⟩ := mem_alternatives_filter_iff.1 hmem
    exact ⟨lhs, rhs, mem_alternatives_iff.2 ⟨alts, hget, hrhs⟩, hs⟩

theorem Over.mapValues (h : ps.Over t) {f : SymbolId → List Form → List Form}
    (hf : ∀ {lhs alts rhs}, ps.get? lhs = some alts → rhs ∈ f lhs alts → ∀ s ∈ rhs,
      ∃ lhs' rhs', rhs' ∈ ps.alternatives lhs' ∧ s ∈ rhs') :
    Over (OrderedMap.mapValues f ps) t := by
  refine h.of_mentions (fun k hk => ?_) fun {lhs rhs} hmem s hs => ?_
  · rwa [OrderedMap.keys_mapValues] at hk
  · obtain ⟨alts, hget, hrhs⟩ := mem_alternatives_mapValues_iff.1 hmem
    exact hf hget hrhs s hs

end Productions

namespace Grammar

/-- The sets of a grammar hold what it mentions, each symbol according to its kind. -/
structure Consistent (g : Grammar) : Prop where
  valid : g.symbols.Valid
  start_mem : g.start ∈ g.nonterminals
  key_mem : ∀ lhs ∈ g.productions.keys, lhs ∈ g.nonterminals
  symbol_mem : ∀ {lhs rhs}, rhs ∈ g.alternatives lhs → ∀ s ∈ rhs,
    s ∈ g.nonterminals ∨ s ∈ g.terminals
  nonterminal : ∀ s ∈ g.nonterminals, g.symbols.isNonterminal s
  terminal : ∀ s ∈ g.terminals, g.symbols.isTerminal s

variable {g : Grammar} {t : SymbolTable} {start s lhs : SymbolId} {ps : Productions} {rhs : Form}

theorem Consistent.isNonterminal_start (h : g.Consistent) : g.symbols.isNonterminal g.start :=
  h.nonterminal _ h.start_mem

theorem Consistent.productions_over (h : g.Consistent) : g.productions.Over g.symbols where
  key lhs hlhs := h.nonterminal lhs (h.key_mem lhs hlhs)
  symbol_lt hrhs s hs := by
    rcases h.symbol_mem hrhs s hs with hs | hs
    · exact SymbolTable.lt_size_of_isNonterminal (h.nonterminal s hs)
    · exact SymbolTable.lt_size_of_isTerminal (h.terminal s hs)

theorem Consistent.isNonterminal_lhs (h : g.Consistent) (hrhs : rhs ∈ g.alternatives lhs) :
    g.symbols.isNonterminal lhs :=
  h.productions_over.key lhs (Productions.mem_keys_of_mem_alternatives hrhs)

theorem Consistent.not_isTerminal_of_mem (h : g.Consistent) (hs : s ∈ g.nonterminals) :
    ¬g.isTerminal s := SymbolTable.not_isTerminal_of_isNonterminal (h.nonterminal s hs)

theorem Consistent.not_isTerminal_start (h : g.Consistent) : ¬g.isTerminal g.start :=
  h.not_isTerminal_of_mem h.start_mem

theorem Consistent.not_isTerminal_lhs (h : g.Consistent) (hrhs : rhs ∈ g.alternatives lhs) :
    ¬g.isTerminal lhs :=
  h.not_isTerminal_of_mem (h.key_mem lhs (Productions.mem_keys_of_mem_alternatives hrhs))

theorem Consistent.validName_name (h : g.Consistent) (hs : s < g.symbols.size) :
    validName (g.name s) :=
  h.valid _ (SymbolTable.mem_names_of_name? (SymbolTable.name?_eq_some_name hs))

theorem Consistent.start_lt (h : g.Consistent) : g.start < g.symbols.size :=
  SymbolTable.lt_size_of_isNonterminal h.isNonterminal_start

theorem Consistent.key_lt (h : g.Consistent) (hlhs : lhs ∈ g.productions.keys) :
    lhs < g.symbols.size :=
  SymbolTable.lt_size_of_isNonterminal (h.productions_over.key lhs hlhs)

theorem Consistent.lhs_lt (h : g.Consistent) (hrhs : rhs ∈ g.alternatives lhs) :
    lhs < g.symbols.size :=
  h.key_lt (Productions.mem_keys_of_mem_alternatives hrhs)

theorem Consistent.hasProduction_name (h : g.Consistent) (hrhs : rhs ∈ g.alternatives lhs) :
    g.hasProduction (g.name lhs) (g.spell rhs) := by
  obtain ⟨alts, hget, hmem⟩ := Productions.mem_alternatives_iff.1 hrhs
  have hlookup : g.productionsOf? (g.name lhs) = some alts := by
    rw [productionsOf?, name, SymbolTable.lookup?_name (h.lhs_lt hrhs), Option.bind_some, hget]
  rw [hasProduction, hlookup]
  exact List.any_eq_true.2 ⟨rhs, hmem, beq_self_eq_true _⟩

theorem Consistent.hasNonterminal_name (h : g.Consistent) (hs : s ∈ g.nonterminals) :
    g.hasNonterminal (g.name s) := by
  have hlt := SymbolTable.lt_size_of_isNonterminal (h.nonterminal s hs)
  rw [hasNonterminal, name, SymbolTable.lookup?_name hlt]
  exact decide_eq_true hs

theorem mem_nonterminals_ofProductions : s ∈ (ofProductions t start ps).nonterminals ↔
    s = start ∨ s ∈ ps.keys ∨ ¬t.isTerminal s ∧ ∃ lhs rhs, rhs ∈ ps.alternatives lhs ∧ s ∈ rhs := by
  simp only [ofProductions, OrderedSet.mem_ofList, List.mem_cons, List.mem_flatMap, List.mem_filter,
    List.mem_flatten, Prod.exists, Productions.mem_alternatives_iff, OrderedMap.get?_eq_some_iff,
    OrderedMap.keys, List.mem_map, Bool.not_eq_true', Bool.not_eq_true]
  constructor
  · rintro (rfl | ⟨lhs, alts, hentry, rfl | ⟨⟨rhs, hrhs, hs⟩, ht⟩⟩)
    · exact Or.inl rfl
    · exact Or.inr (Or.inl ⟨s, alts, hentry, rfl⟩)
    · exact Or.inr (Or.inr ⟨ht, lhs, rhs, ⟨alts, hentry, hrhs⟩, hs⟩)
  · rintro (rfl | ⟨lhs, alts, hentry, rfl⟩ | ⟨ht, lhs, rhs, ⟨alts, hentry, hrhs⟩, hs⟩)
    · exact Or.inl rfl
    · exact Or.inr ⟨_, alts, hentry, Or.inl rfl⟩
    · exact Or.inr ⟨lhs, alts, hentry, Or.inr ⟨⟨rhs, hrhs, hs⟩, ht⟩⟩

theorem mem_terminals_ofProductions : s ∈ (ofProductions t start ps).terminals ↔
    t.isTerminal s ∧ ∃ lhs rhs, rhs ∈ ps.alternatives lhs ∧ s ∈ rhs := by
  simp only [ofProductions, OrderedSet.mem_ofList, List.mem_flatMap, List.mem_filter,
    List.mem_flatten, Prod.exists, Productions.mem_alternatives_iff, OrderedMap.get?_eq_some_iff]
  constructor
  · rintro ⟨lhs, alts, hentry, ⟨rhs, hrhs, hs⟩, ht⟩
    exact ⟨ht, lhs, rhs, ⟨alts, hentry, hrhs⟩, hs⟩
  · rintro ⟨ht, lhs, rhs, ⟨alts, hentry, hrhs⟩, hs⟩
    exact ⟨lhs, alts, hentry, ⟨rhs, hrhs, hs⟩, ht⟩

theorem consistent_ofProductions (hvalid : t.Valid) (hstart : t.isNonterminal start)
    (hps : ps.Over t) : (ofProductions t start ps).Consistent where
  valid := hvalid
  start_mem := mem_nonterminals_ofProductions.2 (Or.inl rfl)
  key_mem lhs hlhs := mem_nonterminals_ofProductions.2 (Or.inr (Or.inl hlhs))
  symbol_mem {lhs rhs} hrhs s hs := by
    by_cases ht : t.isTerminal s
    · exact Or.inr (mem_terminals_ofProductions.2 ⟨ht, lhs, rhs, hrhs, hs⟩)
    · exact Or.inl (mem_nonterminals_ofProductions.2 (Or.inr (Or.inr ⟨ht, lhs, rhs, hrhs, hs⟩)))
  nonterminal s hs := by
    rcases mem_nonterminals_ofProductions.1 hs with rfl | hs | ⟨ht, lhs, rhs, hrhs, hs⟩
    · exact hstart
    · exact hps.key s hs
    · exact SymbolTable.isNonterminal_of_lt (hps.symbol_lt hrhs s hs) ht
  terminal s hs := (mem_terminals_ofProductions.1 hs).1

end Grammar
end Chomsky
