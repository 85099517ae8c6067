import Chomsky.Automaton.Graph
import Chomsky.Proofs.Automaton.WellFormed
import Chomsky.Proofs.Data.Outcome

/-! # Look-ups that may fail

A checked algorithm works on plain tables. It stops with a fault where a table lacks the index or
the key that it is asked for, and where more rounds are left than were foreseen. If it is equal to
an algorithm that has no such fault, then no look-up fails. The graph of a well-formed automaton is
the first example (`checkedGraph_eq`).
-/

namespace Chomsky

/-- Why a checked algorithm stops: an index or a key is not there, there are too many rounds, or the
algorithm itself rejects its input. -/
inductive Fault where
  | missing
  | unfinished
  | rejected (e : LanguageError)

def demand {α : Type u} : Option α → Except Fault α
  | some x => .ok x
  | none => .error .missing

@[simp] theorem demand_some {α : Type u} (x : α) : demand (some x) = .ok x := rfl

theorem lookup_eq_some_iff_mem {α : Type u} {β : Type v} [BEq α] [LawfulBEq α] {l : List (α × β)}
    {k : α} {v : β} (h : ∀ v v', (k, v) ∈ l → (k, v') ∈ l → v = v') :
    l.lookup k = some v ↔ (k, v) ∈ l := by
  have hmem : ∀ {v}, l.lookup k = some v → (k, v) ∈ l := by
    intro v hv
    obtain ⟨l₁, l₂, rfl, -⟩ := List.lookup_eq_some_iff.1 hv
    exact List.mem_append_right l₁ List.mem_cons_self
  refine ⟨hmem, fun hv => ?_⟩
  cases hlookup : l.lookup k with
  | none =>
    have hne := List.lookup_eq_none_iff.1 hlookup (k, v) hv
    simp at hne
  | some v' => rw [h v v' hv (hmem hlookup)]

theorem lookup_zipIdx_eq_some_iff {α : Type u} [BEq α] [LawfulBEq α] {l : List α} (hl : l.Nodup)
    {x : α} {k : Nat} : l.zipIdx.lookup x = some k ↔ l[k]? = some x := by
  rw [lookup_eq_some_iff_mem, List.mem_zipIdx_iff_getElem?]
  intro k k' hk hk'
  rw [List.mem_zipIdx_iff_getElem?] at hk hk'
  exact (List.getElem?_inj (List.getElem?_eq_some_iff.1 hk).1 hl).1 (hk.trans hk'.symm)

theorem idxOf?_eq_some_iff_getElem? {α : Type u} [BEq α] [LawfulBEq α] {l : List α} (hl : l.Nodup)
    {x : α} {k : Nat} : l.idxOf? x = some k ↔ l[k]? = some x := by
  rw [List.idxOf?_eq_some_iff, List.getElem?_eq_some_iff]
  refine exists_congr fun hk => and_iff_left_of_imp fun hx j hj heq => ?_
  have hj' := Nat.lt_trans hj hk
  refine Nat.ne_of_lt hj ((List.getElem?_inj hj' hl).1 ?_)
  rw [List.getElem?_eq_getElem hj', List.getElem?_eq_getElem hk, heq, hx]

theorem find?_zipIdx_eq_some {α : Type u} {l : List α} {x : α} {k : Nat} (hk : l[k]? = some x) :
    l.zipIdx.find? (fun entry => entry.2 == k) = some (x, k) := by
  obtain ⟨hlt, rfl⟩ := List.getElem?_eq_some_iff.1 hk
  rw [List.find?_eq_some_iff_getElem]
  refine ⟨beq_self_eq_true k, k, by simpa using hlt, by simp, fun j hj => ?_⟩
  simpa using Nat.ne_of_lt hj

theorem Transitions.entries_foldl_add {edges : List (StateId × SymbolIndex × StateId)}
    {ts : Transitions} (h : (ts.keys ++ edges.map fun edge => (edge.1, edge.2.1)).Nodup) :
    (edges.foldl (fun ts (q, i, r) => Transitions.add ts q i r) ts).entries =
      ts.entries ++ edges.map fun (q, i, r) => ((q, i), StateSet.singleton r) := by
  induction edges generalizing ts with
  | nil => exact (List.append_nil _).symm
  | cons edge edges ih =>
    obtain ⟨q, i, r⟩ := edge
    have hnot : (q, i) ∉ ts.keys := fun hmem =>
      (List.nodup_append.1 h).2.2 _ hmem _ List.mem_cons_self rfl
    have hadd : (ts.add q i r).entries = ts.entries ++ [((q, i), .singleton r)] :=
      (OrderedMap.entries_upsert _ _ _).trans (OrderedMap.upsertEntries_of_not_mem hnot)
    have hkeys : (ts.add q i r).keys = ts.keys ++ [(q, i)] := by
      rw [OrderedMap.keys, hadd, List.map_append]
      rfl
    rw [List.foldl_cons, ih (by rwa [hkeys, List.append_assoc]), hadd, List.append_assoc]
    rfl

theorem Transitions.foldl_add_rows {α : Type u} (rows : List α) (columns : Nat)
    (f : α → SymbolIndex → Option StateId) :
    (rows.zipIdx.flatMap fun (x, k) => (List.range columns).filterMap fun i =>
      (f x i).map fun r => (k, i, r)).foldl (fun ts (q, i, r) => Transitions.add ts q i r) ∅ =
      .ofRows rows columns fun x i => (f x i).map StateSet.singleton := by
  have hrows := @OrderedMap.nodup_rows _ _ rows columns fun x i => (f x i).map StateSet.singleton
  refine OrderedMap.ext ?_
  rw [entries_foldl_add, OrderedMap.entries_ofRows, OrderedMap.entries_empty, List.nil_append]
  · simp only [List.map_flatMap, List.map_filterMap, Option.map_map, Function.comp_def]
  · simpa only [OrderedMap.keys, OrderedMap.entries_empty, List.map_nil, List.nil_append,
      List.map_flatMap, List.map_filterMap, Option.map_map, Function.comp_def] using hrows

namespace Automaton

variable {a : Automaton} {qs : List StateId}

def checkedNames (a : Automaton) (qs : List StateId) : Except Fault (List String) :=
  qs.mapM fun q => demand (a.stateName? q)

theorem checkedNames_eq (h : ∀ q ∈ qs, q < a.states.size) :
    a.checkedNames qs = .ok (qs.map a.stateName) :=
  mapM_eq_ok fun q hq => by rw [stateName?_eq (h q hq), demand_some]

def checkedEdge (a : Automaton) : StateId × SymbolIndex × StateId → Except Fault GraphEdge
  | (q, i, r) => do
    let source ← demand (a.stateName? q)
    let destination ← demand (a.stateName? r)
    let label ← demand (a.symbolName? i)
    return { source, destination, label }

/-- `toGraph`, with all names found by number. -/
def checkedGraph (a : Automaton) : Except Fault AutomatonGraph := do
  let start ← demand (a.stateName? a.start)
  let accept ← a.checkedNames a.accept.toList
  let edges ← a.edges.mapM a.checkedEdge
  return { states := a.states.toList, start, accept, edges }

theorem WellFormed.checkedGraph_eq (h : a.WellFormed) : a.checkedGraph = .ok a.toGraph := by
  have hedges : a.edges.mapM a.checkedEdge = .ok a.toGraph.edges := by
    refine mapM_eq_ok fun (q, i, r) hmem => ?_
    obtain ⟨hq, hi, hr⟩ := h.lt_of_mem_edges _ hmem
    rw [checkedEdge, stateName?_eq hq, stateName?_eq hr, symbolName?_eq hi]
    rfl
  rw [checkedGraph, stateName?_eq h.start_lt, checkedNames_eq h.accept_lt, hedges]
  rfl

example : checkedGraph ⟨∅, ∅, ∅, 0, ∅⟩ = .error .missing := rfl

end Automaton
end Chomsky
