import Chomsky.Grammar.Analysis
import Chomsky.Proofs.Data.Reachability
import Chomsky.Proofs.Grammar.Consistent
import Chomsky.Proofs.Grammar.Expansion

/-! # What saturation and exploration find

The closure of a base is the least set of left-hand sides that the productions do not leave
(`closure_closed`, `closure_induction`). It gives the nullable and the productive nonterminals,
and exploration the reachable ones, in terms of expansions.
-/

namespace Chomsky

namespace Productions

variable {ps : Productions} {base : SymbolId → Bool} {known known' : OrderedSet SymbolId}
  {lhs s : SymbolId} {rhs : Form} {alts : List Form} {fuel : Nat}

theorem covers_iff : covers base known rhs ↔ ∀ s ∈ rhs, base s ∨ s ∈ known := by
  simp [covers]

theorem covers_mono (h : ∀ s ∈ known, s ∈ known') (hrhs : covers base known rhs) :
    covers base known' rhs :=
  covers_iff.2 fun s hs => (covers_iff.1 hrhs s hs).imp_right (h s)

def enter (base : SymbolId → Bool) (known : OrderedSet SymbolId) (entry : SymbolId × List Form) :
    OrderedSet SymbolId :=
  if entry.2.any (covers base known) then known.insert entry.1 else known

theorem isPrefix_enter (entry : SymbolId × List Form) :
    known.toList <+: (enter base known entry).toList := by
  unfold enter
  split
  · exact OrderedSet.toList_isPrefix_insertAll [entry.1]
  · exact List.prefix_rfl

theorem isPrefix_foldl_enter (entries : List (SymbolId × List Form)) :
    known.toList <+: (entries.foldl (enter base) known).toList := by
  induction entries generalizing known with
  | nil => exact List.prefix_rfl
  | cons entry entries ih => exact (isPrefix_enter entry).trans ih

theorem mem_foldl_enter {entries : List (SymbolId × List Form)} (hentry : (lhs, alts) ∈ entries)
    (hrhs : rhs ∈ alts) (hcovers : covers base known rhs) :
    lhs ∈ entries.foldl (enter base) known := by
  induction entries generalizing known with
  | nil => cases hentry
  | cons entry entries ih =>
    rcases List.mem_cons.1 hentry with rfl | hentry
    · apply (isPrefix_foldl_enter entries).subset
      have hany : alts.any (covers base known) := List.any_eq_true.2 ⟨rhs, hrhs, hcovers⟩
      rw [enter, if_pos hany]
      exact OrderedSet.mem_insert.2 (Or.inr rfl)
    · exact ih hentry (covers_mono (fun s hs => (isPrefix_enter entry).subset hs) hcovers)

theorem forall_mem_foldl_enter {p : SymbolId → Prop} {entries : List (SymbolId × List Form)}
    (h : ∀ lhs alts rhs, (lhs, alts) ∈ entries → rhs ∈ alts → (∀ s ∈ rhs, base s ∨ p s) → p lhs)
    (hknown : ∀ s ∈ known, p s) : ∀ s ∈ entries.foldl (enter base) known, p s := by
  induction entries generalizing known with
  | nil => exact hknown
  | cons entry entries ih =>
    obtain ⟨lhs, alts⟩ := entry
    refine ih (fun lhs alts rhs hentry => h lhs alts rhs (List.mem_cons_of_mem _ hentry)) ?_
    unfold enter
    split
    · next hany =>
      obtain ⟨rhs, hrhs, hcovers⟩ := List.any_eq_true.1 hany
      intro s hs
      rcases OrderedSet.mem_insert.1 hs with hs | rfl
      · exact hknown s hs
      · exact h s alts rhs List.mem_cons_self hrhs fun s hs =>
          (covers_iff.1 hcovers s hs).imp_right (hknown s)
    · exact hknown

theorem mem_round (hrhs : rhs ∈ ps.alternatives lhs) (hcovers : covers base known rhs) :
    lhs ∈ ps.round base known := by
  obtain ⟨alts, hget, hrhs⟩ := mem_alternatives_iff.1 hrhs
  exact mem_foldl_enter (OrderedMap.get?_eq_some_iff.1 hget) hrhs hcovers

theorem forall_mem_round {p : SymbolId → Prop}
    (h : ∀ lhs rhs, rhs ∈ ps.alternatives lhs → (∀ s ∈ rhs, base s ∨ p s) → p lhs)
    (hknown : ∀ s ∈ known, p s) : ∀ s ∈ ps.round base known, p s :=
  forall_mem_foldl_enter (fun lhs alts rhs hentry hrhs =>
    h lhs rhs (mem_alternatives_iff_exists_entry.2 ⟨alts, hentry, hrhs⟩)) hknown

theorem forall_mem_saturate {p : SymbolId → Prop}
    (h : ∀ lhs rhs, rhs ∈ ps.alternatives lhs → (∀ s ∈ rhs, base s ∨ p s) → p lhs)
    (hknown : ∀ s ∈ known, p s) : ∀ s ∈ ps.saturate base fuel known, p s := by
  induction fuel generalizing known with
  | zero => exact hknown
  | succ fuel ih =>
    unfold saturate
    dsimp only
    split
    · exact hknown
    · exact ih (forall_mem_round h hknown)

/-- The closure is contained in every set that the productions do not leave. -/
theorem closure_induction {p : SymbolId → Prop}
    (h : ∀ lhs rhs, rhs ∈ ps.alternatives lhs → (∀ s ∈ rhs, base s ∨ p s) → p lhs)
    (hs : s ∈ ps.closure base) : p s :=
  forall_mem_saturate h (fun _ hs => absurd hs OrderedSet.not_mem_empty) s hs

theorem length_le_size {l : List SymbolId} (hl : l.Nodup) (h : ∀ s ∈ l, s ∈ ps.keys) :
    l.length ≤ ps.size := by
  have hle := length_le_of_nodup hl h
  rwa [OrderedMap.keys, List.length_map, OrderedMap.length_entries] at hle

/-- Enough rounds lead to a set that the productions do not leave. -/
theorem saturate_closed (hknown : ∀ s ∈ known, s ∈ ps.keys) (hfuel : ps.size ≤ known.size + fuel)
    (hrhs : rhs ∈ ps.alternatives lhs)
    (hcovers : ∀ s ∈ rhs, base s ∨ s ∈ ps.saturate base fuel known) :
    lhs ∈ ps.saturate base fuel known := by
  have hkey := mem_keys_of_mem_alternatives hrhs
  induction fuel generalizing known with
  | zero =>
    -- all left-hand sides are known, since there are no more of them
    show lhs ∈ known
    apply Decidable.byContradiction
    intro hlhs
    have hnodup : (lhs :: known.toList).Nodup := List.nodup_cons.2 ⟨hlhs, known.nodup⟩
    have hle := length_le_size hnodup (List.forall_mem_cons.2 ⟨hkey, hknown⟩)
    rw [List.length_cons, OrderedSet.length_toList] at hle
    omega
  | succ fuel ih =>
    have hprefix : known.toList <+: (ps.round base known).toList := isPrefix_foldl_enter _
    unfold saturate at hcovers ⊢
    dsimp only at hcovers ⊢
    split
    · next hsize =>
      rw [if_pos hsize] at hcovers
      have hround := mem_round hrhs (covers_iff.2 hcovers)
      have heq : known.toList = (ps.round base known).toList :=
        hprefix.eq_of_length (by simpa using hsize.symm)
      rw [OrderedSet.mem_def, ← heq] at hround
      exact hround
    · next hsize =>
      rw [if_neg hsize] at hcovers
      have hle := hprefix.length_le
      rw [OrderedSet.length_toList, OrderedSet.length_toList] at hle
      refine ih (forall_mem_round (fun lhs rhs hrhs _ => ?_) hknown) (by omega) hcovers
      exact mem_keys_of_mem_alternatives hrhs

theorem mem_keys_of_mem_closure (hs : s ∈ ps.closure base) : s ∈ ps.keys :=
  closure_induction (fun _ _ hrhs _ => mem_keys_of_mem_alternatives hrhs) hs

theorem closure_closed (hrhs : rhs ∈ ps.alternatives lhs)
    (hcovers : ∀ s ∈ rhs, base s ∨ s ∈ ps.closure base) : lhs ∈ ps.closure base :=
  saturate_closed (fun _ hs => absurd hs OrderedSet.not_mem_empty) (Nat.le_add_left _ _) hrhs
    hcovers

end Productions

namespace Grammar

variable {g : Grammar} {lhs s : SymbolId} {rhs u w : Form}

theorem nullable_closed (hrhs : rhs ∈ g.alternatives lhs) (h : ∀ s ∈ rhs, s ∈ g.nullable) :
    lhs ∈ g.nullable := Productions.closure_closed hrhs fun s hs => Or.inr (h s hs)

theorem expands_nil_of_forall (h : ∀ s ∈ u, g.Expands [s] []) : g.Expands u [] := by
  induction u with
  | nil => exact .nil
  | cons s u ih =>
    obtain ⟨hs, hu⟩ := List.forall_mem_cons.1 h
    exact hs.append (ih hu)

theorem expands_nil_of_mem_nullable (hs : s ∈ g.nullable) : g.Expands [s] [] := by
  refine Productions.closure_induction (p := fun s => g.Expands [s] []) ?_ hs
  intro lhs rhs hrhs hcovers
  refine .of_rule hrhs (expands_nil_of_forall fun s hs => ?_)
  exact (hcovers s hs).resolve_left Bool.false_ne_true

theorem forall_mem_nullable (h : g.Expands u []) : ∀ s ∈ u, s ∈ g.nullable := by
  generalize hw : [] = w at h
  induction h with
  | nil => exact nofun
  | terminal => cases hw
  | expand hrule _ _ ih ih' =>
    obtain ⟨hv, hw⟩ := List.append_eq_nil_iff.1 hw.symm
    exact List.forall_mem_cons.2 ⟨nullable_closed hrule (ih hv.symm), ih' hw.symm⟩

/-- The nullable nonterminals are those that derive the empty word. -/
theorem mem_nullable_iff : s ∈ g.nullable ↔ g.Expands [s] [] :=
  ⟨expands_nil_of_mem_nullable, fun h => forall_mem_nullable h s List.mem_cons_self⟩

theorem productive_closed (hrhs : rhs ∈ g.alternatives lhs)
    (h : ∀ s ∈ rhs, g.isTerminal s ∨ s ∈ g.productive) : lhs ∈ g.productive :=
  Productions.closure_closed hrhs h

theorem forall_mem_productive (h : g.Expands u w) : ∀ s ∈ u, g.isTerminal s ∨ s ∈ g.productive := by
  induction h with
  | nil => exact nofun
  | terminal ha _ ih => exact List.forall_mem_cons.2 ⟨Or.inl ha, ih⟩
  | expand hrule _ _ ih ih' =>
    exact List.forall_mem_cons.2 ⟨Or.inr (productive_closed hrule ih), ih'⟩

theorem exists_expands_of_mem_productive (hs : s ∈ g.productive) : ∃ w, g.Expands [s] w := by
  refine Productions.closure_induction (p := fun s => ∃ w, g.Expands [s] w) ?_ hs
  intro lhs rhs hrhs hcovers
  suffices h : ∃ w, g.Expands rhs w by
    obtain ⟨w, hw⟩ := h
    exact ⟨w, .of_rule hrhs hw⟩
  clear hrhs
  induction rhs with
  | nil => exact ⟨[], .nil⟩
  | cons s rhs ih =>
    obtain ⟨hs, hcovers⟩ := List.forall_mem_cons.1 hcovers
    obtain ⟨w, hw⟩ := ih hcovers
    rcases hs with hs | ⟨v, hv⟩
    · exact ⟨s :: w, .terminal hs hw⟩
    · exact ⟨v ++ w, hv.append hw⟩

theorem mem_mentions_iff : s ∈ g.mentions lhs ↔
    (∃ rhs ∈ g.alternatives lhs, s ∈ rhs) ∧ ¬g.isTerminal s := by
  simp only [mentions, List.mem_filter, List.mem_flatten, Bool.not_eq_true', Bool.not_eq_true]

theorem reachable_eq :
    g.reachable = explore g.mentions (g.symbols.size + 1) [g.start] [g.start] :=
  search_eq_explore fun _ _ h => h

theorem start_mem_reachable : g.start ∈ g.reachable := by
  rw [reachable_eq]
  exact isPrefix_explore.subset List.mem_cons_self

theorem Consistent.reachable_closed (h : g.Consistent) (hlhs : lhs ∈ g.reachable)
    (hrhs : rhs ∈ g.alternatives lhs) (hs : s ∈ rhs) (hterminal : ¬g.isTerminal s) :
    s ∈ g.reachable := by
  rw [reachable_eq] at hlhs ⊢
  refine explore_start_closed (List.range g.symbols.size) ?_ ?_ ?_ lhs hlhs s
    (mem_mentions_iff.2 ⟨⟨rhs, hrhs, hs⟩, hterminal⟩)
  · intro lhs _ s hs
    obtain ⟨⟨rhs, hrhs, hs⟩, -⟩ := mem_mentions_iff.1 hs
    exact List.mem_range.2 (h.productions_over.symbol_lt hrhs s hs)
  · exact List.mem_range.2 h.start_lt
  · rw [List.length_range]
    exact Nat.lt_succ_self _

end Grammar
end Chomsky
