import Chomsky.Proofs.Symbol.Table

/-! # New names can be entered

An unused name can be entered if it is valid. So the search for unused names never fails if the
names that it tries are valid.
-/

namespace Chomsky.SymbolTable

variable {t : SymbolTable} {name base stem : String} {kind : SymbolKind} {counter : Nat}

theorem not_isBlank_of_isDigit {c : Char} (h : c.isDigit) : ¬Text.isBlank c := by
  simp only [Char.isDigit, Bool.and_eq_true, decide_eq_true_eq, ge_iff_le,
    UInt32.le_iff_toNat_le] at h
  have hle : 48 ≤ c.toNat := h.1
  have hge : c.toNat ≤ 57 := h.2
  simp only [Text.isBlank, Bool.or_eq_true, Bool.and_eq_true, decide_eq_true_eq, beq_iff_eq]
  omega

theorem toList_numbered (stem : String) (n : Nat) :
    (numbered stem n).toList = stem.toList ++ Nat.toDigits 10 n := by
  rw [numbered, String.toList_append, Nat.toString_eq_repr, Nat.toList_repr]

theorem isDigit_of_mem_toDigits {c : Char} {n : Nat} (hc : c ∈ Nat.toDigits 10 n) : c.isDigit :=
  Nat.isDigit_of_mem_toDigits (by decide) (by decide) hc

theorem validName_numbered (h : ∀ c ∈ stem.toList, ¬Text.isBlank c) (n : Nat) :
    validName (numbered stem n) := by
  have hlist := toList_numbered stem n
  have hdigit : ∀ c ∈ Nat.toDigits 10 n, c.isDigit := fun c hc => isDigit_of_mem_toDigits hc
  refine validName_iff.2 ⟨?_, ?_, fun heq => ?_⟩
  · rw [hlist]
    exact List.append_ne_nil_of_right_ne_nil _ Nat.toDigits_ne_nil
  · rw [hlist]
    exact List.forall_mem_append.2 ⟨h, fun c hc => not_isBlank_of_isDigit (hdigit c hc)⟩
  · have hmem : ∀ c ∈ Nat.toDigits 10 n, c = 'ε' := by
      intro c hc
      have hc : c ∈ (numbered stem n).toList := hlist ▸ List.mem_append_right _ hc
      rw [heq] at hc
      exact List.mem_singleton.1 hc
    obtain ⟨c, hc⟩ := List.exists_mem_of_ne_nil _ (Nat.toDigits_ne_nil (n := n) (b := 10))
    have hdigit := hdigit c hc
    rw [hmem c hc] at hdigit
    exact absurd hdigit (by decide)

theorem exists_intern (hvalid : validName name) (hunused : ¬t.contains name) :
    ∃ p, t.intern name kind = .ok p := by
  have hnone : t.lookup? name = none := by
    cases hlookup : t.lookup? name with
    | none => rfl
    | some id =>
      have hname := mem_names_of_name? (lookup?_eq_some_iff.1 hlookup)
      exact absurd (contains_iff.2 hname) hunused
  rw [intern, if_pos hvalid, hnone]
  exact ⟨_, rfl⟩

theorem exists_fresh (hbase : validName base) : ∃ p, t.fresh base kind = .ok p := by
  rw [fresh, withQuotes_eq]
  exact exists_intern (validName_quoted hbase _)
    (not_contains_leastUnused (quoted_injective base) 0)

theorem exists_freshNumbered (hstem : ∀ c ∈ stem.toList, ¬Text.isBlank c) :
    ∃ p, (t.freshNumbered stem counter kind).1 = .ok p :=
  exists_intern (validName_numbered hstem _)
    (not_contains_leastUnused (numbered_injective stem) counter)

end Chomsky.SymbolTable
