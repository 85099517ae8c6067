import Chomsky.Grammar.UnitFree
import Chomsky.Proofs.Data.Outcome
import Mathlib.Data.List.Chain
import Mathlib.Data.List.Nodup
import Mathlib.Logic.Relation

/-! # The search for a cycle

What the search in depth reports is a cycle (`isCycle_of_searchCycle`). If it reports none, each
node leads only to nodes that were done before it (`Settled`), so that there is no cycle through
them (`Settled.not_transGen`).
-/

namespace Chomsky

open Relation (ReflTransGen TransGen)

section Outcomes

variable {ε α β : Type} {f : β → α → Except ε β} {l : List α} {b : β} {e : ε}

theorem exists_of_foldlM_eq_error (h : l.foldlM f b = .error e) :
    ∃ a ∈ l, ∃ b', f b' a = .error e := by
  induction l generalizing b with
  | nil => cases h
  | cons a l ih =>
    rw [List.foldlM_cons] at h
    rcases bind_eq_error_iff.1 h with h | ⟨b', -, h⟩
    · exact ⟨a, List.mem_cons_self, b, h⟩
    · obtain ⟨x, hx, hf⟩ := ih h
      exact ⟨x, List.mem_cons_of_mem _ hx, hf⟩

end Outcomes

namespace Grammar

variable {next : SymbolId → List SymbolId} {fuel : Nat} {path done done' cycle all : List SymbolId}
  {node target a b : SymbolId}

/-- A chain of successors through different nodes, with the first node once more at the end. -/
def IsCycle (next : SymbolId → List SymbolId) (cycle : List SymbolId) : Prop :=
  ∃ a l, cycle = a :: l ++ [a] ∧ (a :: l).Nodup ∧ cycle.IsChain fun x y => y ∈ next x

theorem IsCycle.exists_transGen (h : IsCycle next cycle) :
    ∃ a, TransGen (fun x y => y ∈ next x) a a := by
  obtain ⟨a, l, rfl, -, hchain⟩ := h
  obtain ⟨b, m, hl⟩ : ∃ b m, l ++ [a] = b :: m := by
    cases l with
    | nil => exact ⟨a, [], rfl⟩
    | cons b l => exact ⟨b, l ++ [a], rfl⟩
  rw [List.cons_append, hl, List.isChain_cons_cons] at hchain
  refine ⟨a, .head' hchain.1 ?_⟩
  refine List.relationReflTransGen_of_exists_isChain_cons m hchain.2 ?_
  simp [← hl]

theorem exists_next_of_isChain {l : List SymbolId}
    (h : (l ++ [b]).IsChain fun x y => y ∈ next x) (ha : a ∈ l) : ∃ c, c ∈ next a := by
  obtain ⟨s, t, rfl⟩ := List.append_of_mem ha
  rw [List.append_assoc, List.cons_append, List.isChain_split] at h
  cases t with
  | nil => exact ⟨b, (List.isChain_cons_cons.1 h.2).1⟩
  | cons c t => exact ⟨c, (List.isChain_cons_cons.1 h.2).1⟩

theorem isCycle_of_mem_path (hchain : (node :: path).IsChain fun x y => x ∈ next y)
    (hnodup : (node :: path).Nodup) (htarget : target ∈ next node) (hmem : target ∈ node :: path) :
    IsCycle next
      (target :: ((node :: path).takeWhile (· != target)).reverse ++ [target]) := by
  obtain ⟨s, t, hpath⟩ := List.append_of_mem hmem
  have hs : target ∉ s := by
    rw [hpath] at hnodup
    exact fun hs => (List.nodup_append.1 hnodup).2.2 target hs target List.mem_cons_self rfl
  have htake : (node :: path).takeWhile (· != target) = s := by
    have hne : ∀ x ∈ s, x != target := fun x hx => bne_iff_ne.2 fun heq => hs (heq ▸ hx)
    rw [hpath, List.takeWhile_append_of_pos hne, List.takeWhile_cons_of_neg (by simp),
      List.append_nil]
  have hfront : s ++ [target] <+: node :: path := ⟨t, by simp [hpath]⟩
  have hhead : (s ++ [target]).head? = some node := by
    have hpath := congrArg List.head? hpath
    cases s <;> simpa using hpath.symm
  have hreverse : target :: s.reverse = (s ++ [target]).reverse := by simp
  rw [htake]
  refine ⟨target, s.reverse, rfl, ?_, ?_⟩
  · rw [hreverse]
    exact List.nodup_reverse.2 (hfront.sublist.nodup hnodup)
  · rw [hreverse, List.isChain_append]
    have hfront' := List.IsChain.infix hchain hfront.isInfix
    refine ⟨List.isChain_reverse.2 hfront', .singleton _, fun x hx y hy => ?_⟩
    rw [List.getLast?_reverse, hhead] at hx
    obtain rfl := Option.some.inj hx
    obtain rfl := Option.some.inj hy
    exact htarget

/-- A cycle that the search reports is one. -/
theorem isCycle_of_searchCycle (hchain : (node :: path).IsChain fun x y => x ∈ next y)
    (hnodup : (node :: path).Nodup) (h : searchCycle next fuel path done node = .error cycle) :
    IsCycle next cycle := by
  induction fuel generalizing path done node with
  | zero => cases h
  | succ fuel ih =>
    rcases bind_eq_error_iff.1 h with h | ⟨_, -, h⟩
    · obtain ⟨target, htarget, done', h⟩ := exists_of_foldlM_eq_error h
      split at h
      · next hmem =>
        obtain rfl := Except.error.inj h
        exact isCycle_of_mem_path hchain hnodup htarget hmem
      · next hmem =>
        split at h
        · cases h
        · exact ih (.cons_cons htarget hchain) (List.nodup_cons.2 ⟨hmem, hnodup⟩) h
    · cases h

/-- Each node of the list leads only to nodes after it. -/
inductive Settled (next : SymbolId → List SymbolId) : List SymbolId → Prop
  | nil : Settled next []
  | cons {node : SymbolId} {done : List SymbolId} (hnext : ∀ x ∈ next node, x ∈ done)
      (hdone : Settled next done) : Settled next (node :: done)

theorem Settled.mem_of_transGen (h : Settled next done) (ha : a ∈ done)
    (hab : TransGen (fun x y => y ∈ next x) a b) : b ∈ done := by
  have hclosed : ∀ {x y}, x ∈ done → y ∈ next x → y ∈ done := by
    clear ha hab
    induction h with
    | nil => exact nofun
    | cons hnext _ ih =>
      intro x y hx hy
      rcases List.mem_cons.1 hx with rfl | hx
      · exact List.mem_cons_of_mem _ (hnext y hy)
      · exact List.mem_cons_of_mem _ (ih hx hy)
  induction hab with
  | single hb => exact hclosed ha hb
  | tail _ hb ih => exact hclosed ih hb

theorem Settled.not_transGen (h : Settled next done) (ha : a ∈ done) :
    ¬TransGen (fun x y => y ∈ next x) a a := by
  induction h with
  | nil => cases ha
  | @cons node done hnext hdone ih =>
    intro hcycle
    by_cases hmem : a ∈ done
    · exact ih hmem hcycle
    · obtain rfl := (List.mem_cons.1 ha).resolve_right hmem
      obtain ⟨b, hb, hback⟩ := TransGen.head'_iff.1 hcycle
      rcases Relation.reflTransGen_iff_eq_or_transGen.1 hback with rfl | hback
      · exact hmem (hnext _ hb)
      · exact hmem (hdone.mem_of_transGen (hnext b hb) hback)

/-- What a visit of a node adds to the nodes that are done. -/
structure Visits (next : SymbolId → List SymbolId) (nodes done done' : List SymbolId) : Prop where
  settled : Settled next done'
  subset : done ⊆ done'
  mem : ∀ x ∈ nodes, x ∈ done'

theorem visits_foldlM {visit : List SymbolId → SymbolId → Except (List SymbolId) (List SymbolId)}
    {nodes : List SymbolId}
    (hvisit : ∀ {done x done'}, x ∈ nodes → Settled next done → visit done x = .ok done' →
      Visits next [x] done done')
    (hdone : Settled next done) (h : nodes.foldlM visit done = .ok done') :
    Visits next nodes done done' := by
  induction nodes generalizing done with
  | nil =>
    cases h
    exact ⟨hdone, List.Subset.refl _, nofun⟩
  | cons x nodes ih =>
    rw [List.foldlM_cons] at h
    obtain ⟨done₁, hx, h⟩ := bind_eq_ok_iff.1 h
    have hvisit₁ := hvisit List.mem_cons_self hdone hx
    have hvisits := ih (fun hx => hvisit (List.mem_cons_of_mem _ hx)) hvisit₁.settled h
    refine ⟨hvisits.settled, List.Subset.trans hvisit₁.subset hvisits.subset, ?_⟩
    exact List.forall_mem_cons.2
      ⟨hvisits.subset (hvisit₁.mem x List.mem_cons_self), hvisits.mem⟩

/-- Without a cycle the search settles a node, if its fuel exceeds the nodes outside the path. -/
theorem visits_searchCycle (hall : ∀ x ∈ all, ∀ y ∈ next x, y ∈ all)
    (hnodup : (node :: path).Nodup) (hpath : ∀ x ∈ node :: path, x ∈ all)
    (hfuel : all.length < fuel + path.length) (hdone : Settled next done)
    (h : searchCycle next fuel path done node = .ok done') : Visits next [node] done done' := by
  induction fuel generalizing path done node done' with
  | zero =>
    have hlength := length_le_of_nodup hnodup hpath
    rw [List.length_cons] at hlength
    omega
  | succ fuel ih =>
    obtain ⟨done₁, hvisits, h⟩ := bind_eq_ok_iff.1 h
    obtain rfl := pure_eq_ok_iff.1 h
    have hvisits : Visits next (next node) done done₁ := by
      refine visits_foldlM (fun {done x done'} hx hdone hvisit => ?_) hdone hvisits
      split at hvisit
      · cases hvisit
      · next hmem =>
        split at hvisit
        · next hx =>
          cases hvisit
          exact ⟨hdone, List.Subset.refl _, List.forall_mem_singleton.2 hx⟩
        · have hx := hall node (hpath node List.mem_cons_self) x hx
          refine ih (List.nodup_cons.2 ⟨hmem, hnodup⟩) (List.forall_mem_cons.2 ⟨hx, hpath⟩) ?_
            hdone hvisit
          rw [List.length_cons]
          omega
    exact ⟨.cons hvisits.mem hvisits.settled, List.subset_cons_of_subset _ hvisits.subset,
      List.forall_mem_singleton.2 List.mem_cons_self⟩

end Grammar
end Chomsky
