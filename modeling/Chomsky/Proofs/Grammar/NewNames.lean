import Chomsky.Proofs.Grammar.Roots

/-! # Names of new symbols

Making a grammar binary adds numbered names to its symbol table, and one for a new start symbol. So
the symbols of its productions are those that were there in the same role, or have such names
(`name_of_mem_keys_binarizeWith`, `name_of_occursOnRight_binarizeWith`).
-/

namespace Chomsky

namespace SymbolTable

variable {t u : SymbolTable} {name stem : String} {kind : SymbolKind} {id : SymbolId} {n : Nat}

theorem name_of_intern (h : t.intern name kind = .ok (id, u)) : u.name id = name := by
  rw [SymbolTable.name, (intern_eq_ok h).2.1, Option.getD_some]

def NumberedFrom (t : SymbolTable) (n : Nat) (stem : String) : Prop :=
  ∀ id, n ≤ id → id < t.size → ∃ k, t.name id = numbered stem k

theorem NumberedFrom.fresh {v v' : Variables} (hv : v.symbols.NumberedFrom n stem)
    (h : v.fresh stem = .ok (id, v')) : v'.symbols.NumberedFrom n stem := by
  obtain ⟨⟨id, symbols⟩, hentered, heq⟩ := map_eq_ok_iff.1 h
  obtain ⟨rfl, rfl⟩ := Prod.mk.inj heq
  have hgrows := grows_of_freshNumbered hentered
  intro s hs hlt
  rcases Nat.lt_succ_iff_lt_or_eq.1 (Nat.lt_of_lt_of_eq hlt hgrows.size_eq) with hlt | rfl
  · obtain ⟨k, hk⟩ := hv s hs hlt
    exact ⟨k, (hgrows.ext.name_eq hlt).trans hk⟩
  · exact ⟨_, hgrows.id_eq ▸ name_of_intern hentered⟩

end SymbolTable

namespace Variables

variable {v v' : Variables} {stem : String} {a b id : SymbolId} {rhs form rest : Form}

section Symbols

variable {p : SymbolTable → Prop}
  (hp : ∀ {v v' id}, Variables.fresh stem v = .ok (id, v') → p v.symbols → p v'.symbols)
  (hv : p v.symbols)
include hp hv

theorem forTerminal_symbols (h : v.forTerminal stem a = .ok (id, v')) : p v'.symbols := by
  unfold forTerminal at h
  split at h
  · cases h
    exact hv
  · obtain ⟨⟨id, v₁⟩, hfresh, h⟩ := bind_eq_ok_iff.1 h
    have hv₁ := hp hfresh hv
    obtain ⟨rfl, rfl⟩ := Prod.mk.inj (pure_eq_ok_iff.1 h)
    exact hv₁

theorem forChain_symbols (h : v.forChain stem a b rest = .ok (id, v')) : p v'.symbols := by
  induction rest generalizing v a b id v' with
  | nil =>
    unfold forChain at h
    split at h
    · cases h
      exact hv
    · obtain ⟨⟨id, v₁⟩, hfresh, h⟩ := bind_eq_ok_iff.1 h
      have hv₁ := hp hfresh hv
      obtain ⟨rfl, rfl⟩ := Prod.mk.inj (pure_eq_ok_iff.1 h)
      exact hv₁
  | cons c rest ih =>
    unfold forChain at h
    split at h
    · cases h
      exact hv
    · obtain ⟨⟨id, v₁⟩, hfresh, h⟩ := bind_eq_ok_iff.1 h
      obtain ⟨⟨tail, v₂⟩, hchain, h⟩ := bind_eq_ok_iff.1 h
      have hv₁ := hp hfresh hv
      have hv₂ := ih (v := v₁.fold (a :: b :: c :: rest) id) hv₁ hchain
      obtain ⟨rfl, rfl⟩ := Prod.mk.inj (pure_eq_ok_iff.1 h)
      exact hv₂

theorem liftAll_symbols (h : v.liftAll stem rhs = .ok (form, v')) : p v'.symbols := by
  induction rhs generalizing v form with
  | nil =>
    cases h
    exact hv
  | cons s rhs ih =>
    rw [liftAll_cons] at h
    obtain ⟨⟨id, v₁⟩, hsymbol, h⟩ := bind_eq_ok_iff.1 h
    obtain ⟨⟨form, v₂⟩, hrest, h⟩ := bind_eq_ok_iff.1 h
    obtain ⟨rfl, rfl⟩ := Prod.mk.inj (pure_eq_ok_iff.1 h)
    refine ih ?_ hrest
    split at hsymbol
    · exact forTerminal_symbols hp hv hsymbol
    · cases hsymbol
      exact hv

theorem binarize_symbols (h : v.binarize stem rhs = .ok (form, v')) : p v'.symbols := by
  unfold Variables.binarize at h
  split at h
  · cases h
    exact hv
  · obtain ⟨⟨lifted, v₁⟩, hlift, h⟩ := bind_eq_ok_iff.1 h
    have hv₁ := liftAll_symbols hp hv hlift
    dsimp only at h
    split at h
    · obtain ⟨⟨tail, v₂⟩, hchain, h⟩ := bind_eq_ok_iff.1 h
      obtain ⟨rfl, rfl⟩ := Prod.mk.inj (pure_eq_ok_iff.1 h)
      exact forChain_symbols hp hv₁ hchain
    · obtain ⟨rfl, rfl⟩ := Prod.mk.inj (pure_eq_ok_iff.1 h)
      exact hv₁

theorem binarizeAll_symbols {alts alts' : List Form}
    (h : v.binarizeAll stem alts = .ok (alts', v')) : p v'.symbols := by
  induction alts generalizing v alts' with
  | nil =>
    cases h
    exact hv
  | cons rhs alts ih =>
    obtain ⟨⟨rhs', v₁⟩, hbinarize, h⟩ := bind_eq_ok_iff.1 h
    obtain ⟨⟨alts', v₂⟩, hrest, h⟩ := bind_eq_ok_iff.1 h
    obtain ⟨rfl, rfl⟩ := Prod.mk.inj (pure_eq_ok_iff.1 h)
    exact ih (binarize_symbols hp hv hbinarize) hrest

theorem binarizeEntries_symbols {entries entries' : List (SymbolId × List Form)}
    (h : v.binarizeEntries stem entries = .ok (entries', v')) : p v'.symbols := by
  induction entries generalizing v entries' with
  | nil =>
    cases h
    exact hv
  | cons entry entries ih =>
    obtain ⟨⟨alts', v₁⟩, halts, h⟩ := bind_eq_ok_iff.1 h
    obtain ⟨⟨entries', v₂⟩, hrest, h⟩ := bind_eq_ok_iff.1 h
    obtain ⟨rfl, rfl⟩ := Prod.mk.inj (pure_eq_ok_iff.1 h)
    exact ih (binarizeAll_symbols hp hv halts) hrest

end Symbols

theorem numberedFrom_binarizeEntries {entries entries' : List (SymbolId × List Form)}
    (h : v.binarizeEntries stem entries = .ok (entries', v')) :
    v'.symbols.NumberedFrom v.symbols.size stem :=
  binarizeEntries_symbols (p := fun t => t.NumberedFrom v.symbols.size stem)
    (fun hfresh hv => hv.fresh hfresh) (fun _ hs hlt => absurd hs (Nat.not_le.2 hlt)) h

end Variables

namespace Grammar

variable {g b : Grammar} {names : NormalFormNames} {t : SymbolTable} {start lhs a : SymbolId}
  {ps : Productions}

theorem name_separateStart {suffix : String} (h : g.separateStart suffix = .ok (t, start, ps)) :
    start = g.start ∧ t = g.symbols ∨ ∃ k, t.name start = quoted (g.startName ++ suffix) k := by
  rcases separateStart_eq_ok h with ⟨-, hfresh, -⟩ | ⟨-, htable, hstart, -⟩
  · have hname := SymbolTable.name_of_intern hfresh
    rw [withQuotes_eq] at hname
    exact Or.inr ⟨_, hname⟩
  · exact Or.inl ⟨hstart, htable⟩

section BinarizeWith

variable (hg : g.Consistent) (h : g.binarizeWith names = .ok b)
include hg h

/-- The name of the start symbol of a binary grammar, with quotes if it is a new one. -/
theorem startName_binarizeWith : b.startName = g.startName ∨
    ∃ k, b.startName = quoted (g.startName ++ names.startSuffix) k := by
  obtain ⟨t, start, ps, entries, v, hseparate, hentries, rfl⟩ := binarizeWith_eq_ok h
  have hsep := separates_of_separateStart hg hseparate
  have hext := (hsep.invariant_binarizeEntries hentries).1.ext
  have hname : v.symbols.name start = t.name start :=
    hext.name_eq (SymbolTable.lt_size_of_isNonterminal hsep.nonterminal)
  rcases name_separateStart hseparate with ⟨rfl, rfl⟩ | ⟨k, hk⟩
  · exact Or.inl hname
  · exact Or.inr ⟨k, hname.trans hk⟩

theorem name_of_mem_keys_binarizeWith (hlhs : lhs ∈ b.productions.keys) :
    lhs = b.start ∨ lhs ∈ g.productions.keys ∨ ∃ k, b.name lhs = numbered names.stem k := by
  obtain ⟨t, start, ps, entries, v, hseparate, hentries, rfl⟩ := binarizeWith_eq_ok h
  have hsep := separates_of_separateStart hg hseparate
  have hbin := hsep.binarization hentries
  rcases hbin.key hlhs with hlhs | ⟨rhs, hdef⟩
  · exact (mem_keys_of_separateStart hg hseparate hlhs).imp_right Or.inl
  · obtain ⟨hle, hnonterminal⟩ := hbin.invariant.lhs hdef
    exact Or.inr (Or.inr (Variables.numberedFrom_binarizeEntries hentries lhs hle
      (SymbolTable.lt_size_of_isNonterminal hnonterminal)))

theorem name_of_occursOnRight_binarizeWith (ha : b.occursOnRight a) :
    g.occursOnRight a ∨ ∃ k, b.name a = numbered names.stem k := by
  obtain ⟨t, start, ps, entries, v, hseparate, hentries, rfl⟩ := binarizeWith_eq_ok h
  have hsep := separates_of_separateStart hg hseparate
  have hbin := hsep.binarization hentries
  obtain ⟨lhs, rhs, hrhs, ha⟩ := occursOnRight_iff.1 ha
  obtain ⟨f, hreads, hused⟩ := hbin.exists_reads ⟨rhs, hrhs, ha⟩
  cases hreads with
  | terminal _ _ => exact Or.inl (hsep.occursOnRight (hused a List.mem_cons_self))
  | expand hdef _ _ =>
    obtain ⟨hle, hnonterminal⟩ := hbin.invariant.lhs hdef
    exact Or.inr (Variables.numberedFrom_binarizeEntries hentries a hle
      (SymbolTable.lt_size_of_isNonterminal hnonterminal))

end BinarizeWith

end Grammar
end Chomsky
