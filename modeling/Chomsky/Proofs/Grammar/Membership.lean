import Chomsky.Grammar.Membership
import Chomsky.Proofs.Grammar.Normalization

/-! # Spans are derivations

The rows of places hold the spans of a word and nothing else (`rowsHold_spanRows`), for every
grammar. In a grammar in normal form, a word with a span from its beginning to its end is a word
of the language, and conversely.
-/

namespace Chomsky.Grammar

/-- Derivation trees whose productions have one terminal or two nonterminals on the right. -/
inductive Parses (g : Grammar) : SymbolId → Form → Prop
  | terminal {lhs a : SymbolId} (hlhs : lhs < g.symbols.size) (hrhs : [a] ∈ g.alternatives lhs)
      (ha : g.isTerminal a) : Parses g lhs [a]
  | pair {lhs b c : SymbolId} {u v : Form} (hlhs : lhs < g.symbols.size)
      (hrhs : [b, c] ∈ g.alternatives lhs) (hb : g.symbols.isNonterminal b)
      (hc : g.symbols.isNonterminal c) (hu : Parses g b u) (hv : Parses g c v) :
      Parses g lhs (u ++ v)

def SpansTo (g : Grammar) (word : Form) (stop : Nat) (s : SymbolId) : Prop :=
  ∃ u rest, word = u ++ rest ∧ rest.length = stop ∧ g.Parses s u

/-- The symbol derives the part of the word between two places. -/
def Spans (g : Grammar) (word : Form) (start stop : Nat) (s : SymbolId) : Prop :=
  ∃ before rest, word = before ++ rest ∧ rest.length = start ∧ g.SpansTo rest stop s

/-- The row holds the starts of the spans with a given end. -/
structure StartsHold (g : Grammar) (word : Form) (stop : Nat) (row : PlaceRow) : Prop where
  size_eq : row.size = g.symbols.size
  mem_iff : ∀ i s, i ∈ row.places s ↔ g.Spans word i stop s

structure EndsHold (g : Grammar) (word : Form) (least : Nat) (row : PlaceRow) : Prop where
  size_eq : row.size = g.symbols.size
  mem_iff : ∀ i s, i ∈ row.places s ↔ least ≤ i ∧ g.SpansTo word i s

/-- The rows hold the starts for the ends below a number, the greatest end first. -/
inductive RowsHold (g : Grammar) (word : Form) : Nat → List PlaceRow → Prop
  | nil : RowsHold g word 0 []
  | cons {n : Nat} {row : PlaceRow} {rows : List PlaceRow} (hrow : g.StartsHold word n row)
      (hrows : RowsHold g word n rows) : RowsHold g word (n + 1) (row :: rows)

variable {g : Grammar} {s b c a : SymbolId} {u v word : Form} {n i stop : Nat}
  {row starts ends : PlaceRow} {rows : List PlaceRow} {w : List String}

section Trees

theorem Parses.ne_nil (h : g.Parses s u) : u ≠ [] := by
  induction h with
  | terminal => exact List.cons_ne_nil _ _
  | pair _ _ _ _ _ _ ih => exact fun hnil => ih (List.append_eq_nil_iff.1 hnil).1

theorem Parses.expands (h : g.Parses s u) : g.Expands [s] u := by
  induction h with
  | terminal _ hrhs ha => exact .of_rule hrhs (.terminal ha .nil)
  | pair _ hrhs _ _ _ _ ihu ihv => exact .of_rule hrhs (ihu.append ihv)

theorem parses_singleton_iff :
    g.Parses s [a] ↔ s < g.symbols.size ∧ s ∈ g.headsOfTerminal a := by
  have hmem : s ∈ g.headsOfTerminal a ↔ [a] ∈ g.alternatives s ∧ g.isTerminal a := by
    simp only [headsOfTerminal, List.mem_filterMap, Prod.exists, Option.ite_none_right_eq_some,
      Option.some.injEq]
    constructor
    · rintro ⟨lhs, rhs, hrule, ⟨rfl, ha⟩, rfl⟩
      exact ⟨mem_rules.1 hrule, ha⟩
    · rintro ⟨hrhs, ha⟩
      exact ⟨s, [a], mem_rules.2 hrhs, ⟨rfl, ha⟩, rfl⟩
  rw [hmem]
  constructor
  · intro h
    generalize hu : [a] = u at h
    cases h with
    | terminal hs hrhs ha =>
      obtain rfl := List.singleton_inj.1 hu
      exact ⟨hs, hrhs, ha⟩
    | pair _ _ _ _ hx hy =>
      rcases List.singleton_eq_append_iff.1 hu with ⟨hnil, -⟩ | ⟨-, hnil⟩
      · exact absurd hnil hx.ne_nil
      · exact absurd hnil hy.ne_nil
  · rintro ⟨hs, hrhs, ha⟩
    exact .terminal hs hrhs ha

theorem mem_pairRules_iff : (s, b, c) ∈ g.pairRules ↔
    [b, c] ∈ g.alternatives s ∧ g.symbols.isNonterminal b ∧ g.symbols.isNonterminal c := by
  simp only [pairRules, List.mem_filterMap, Prod.exists]
  constructor
  · rintro ⟨lhs, rhs, hrule, h⟩
    split at h
    · obtain ⟨hkinds, heq⟩ := Option.ite_none_right_eq_some.1 h
      obtain ⟨rfl, rfl, rfl⟩ : lhs = s ∧ _ = b ∧ _ = c := by simpa using heq
      exact ⟨mem_rules.1 hrule, Bool.and_eq_true_iff.1 hkinds⟩
    · cases h
  · rintro ⟨hrhs, hb, hc⟩
    exact ⟨s, [b, c], mem_rules.2 hrhs, by simp [hb, hc]⟩

end Trees

section Places

theorem SpansTo.lt (h : g.SpansTo word stop s) : stop < word.length := by
  obtain ⟨u, rest, rfl, rfl, hu⟩ := h
  have := List.length_pos_iff.2 hu.ne_nil
  rw [List.length_append]
  omega

theorem Spans.le (h : g.Spans word i stop s) : i ≤ word.length := by
  obtain ⟨before, rest, rfl, rfl, -⟩ := h
  simp

theorem Spans.lt (h : g.Spans word i stop s) : stop < i := by
  obtain ⟨before, rest, -, rfl, hrest⟩ := h
  exact hrest.lt

theorem spans_cons_iff : g.Spans (a :: word) i stop s ↔
    g.Spans word i stop s ∨ i = word.length + 1 ∧ g.SpansTo (a :: word) stop s := by
  constructor
  · rintro ⟨before, rest, heq, rfl, h⟩
    cases before with
    | nil =>
      obtain rfl : a :: word = rest := heq
      exact Or.inr ⟨rfl, h⟩
    | cons x before =>
      obtain ⟨-, rfl⟩ := List.cons.inj heq
      exact Or.inl ⟨before, rest, rfl, rfl, h⟩
  · rintro (⟨before, rest, rfl, rfl, h⟩ | ⟨rfl, h⟩)
    · exact ⟨a :: before, rest, rfl, rfl, h⟩
    · exact ⟨[], a :: word, rfl, rfl, h⟩

theorem spansTo_length_iff : g.SpansTo (a :: word) word.length s ↔ g.Parses s [a] := by
  constructor
  · rintro ⟨u, rest, heq, hlen, hu⟩
    have hlength : ([a] ++ word).length = (u ++ rest).length := congrArg List.length heq
    rw [List.length_append, List.length_append, hlen] at hlength
    obtain ⟨rfl, -⟩ := List.append_inj (show [a] ++ word = u ++ rest from heq) (by omega)
    exact hu
  · exact fun h => ⟨[a], word, rfl, rfl, h⟩

/-- A span of more than one symbol consists of two by a production. -/
theorem spansTo_iff_of_lt (hn : n < word.length) : g.SpansTo (a :: word) n s ↔
    s < g.symbols.size ∧ ∃ b c, (s, b, c) ∈ g.pairRules ∧
      ∃ i, g.SpansTo (a :: word) i b ∧ g.Spans word i n c := by
  constructor
  · rintro ⟨u, rest, heq, rfl, hu⟩
    cases hu with
    | terminal =>
      obtain ⟨-, rfl⟩ := List.cons.inj heq
      exact absurd hn (Nat.lt_irrefl _)
    | @pair _ b c u v hs hrhs hb hc hu hv =>
      refine ⟨hs, b, c, mem_pairRules_iff.2 ⟨hrhs, hb, hc⟩, (v ++ rest).length, ?_, ?_⟩
      · exact ⟨u, v ++ rest, by rw [heq, List.append_assoc], rfl, hu⟩
      · obtain ⟨x, u, rfl⟩ := List.exists_cons_of_ne_nil hu.ne_nil
        obtain ⟨-, rfl⟩ := List.cons.inj heq
        exact ⟨u, v ++ rest, List.append_assoc u v rest, rfl, v, rest, rfl, rfl, hv⟩
  · rintro ⟨hs, b, c, hpair, i, ⟨u, rest, heq, rfl, hu⟩, before, rest', heq', hlen, v, y, rfl, rfl,
      hv⟩
    obtain ⟨hrhs, hb, hc⟩ := mem_pairRules_iff.1 hpair
    have hrest : (a :: before) ++ (v ++ y) = u ++ rest := by
      rw [← heq, heq', List.cons_append]
    obtain ⟨-, rfl⟩ := List.append_inj' hrest hlen
    exact ⟨u ++ v, y, by rw [heq, List.append_assoc], rfl, .pair hs hrhs hb hc hu hv⟩

end Places

section Rows

theorem size_blank : (Array.replicate g.symbols.size (∅ : BitSet) : PlaceRow).size =
    g.symbols.size := Array.size_replicate

theorem not_mem_places_blank :
    i ∉ PlaceRow.places (Array.replicate g.symbols.size (∅ : BitSet)) s := by
  rw [PlaceRow.places, Array.getD_eq_getD_getElem?, Array.getElem?_replicate]
  split
  · exact BitSet.not_mem_empty
  · exact BitSet.not_mem_empty

theorem mem_places_add_blank {place : Nat} {symbols : List SymbolId} :
    i ∈ (PlaceRow.add (Array.replicate g.symbols.size ∅) place symbols).places s ↔
      i = place ∧ s < g.symbols.size ∧ s ∈ symbols := by
  rw [mem_places_add, size_blank, or_iff_right not_mem_places_blank,
    and_comm (a := s ∈ symbols)]

theorem endsHold_first :
    g.EndsHold (a :: word) word.length
      (PlaceRow.add (Array.replicate g.symbols.size ∅) word.length (g.headsOfTerminal a)) where
  size_eq := by rw [size_add, size_blank]
  mem_iff i s := by
    rw [mem_places_add_blank, ← parses_singleton_iff]
    constructor
    · rintro ⟨rfl, h⟩
      exact ⟨Nat.le_refl _, spansTo_length_iff.2 h⟩
    · rintro ⟨hle, h⟩
      obtain rfl : i = word.length := by
        have := h.lt
        rw [List.length_cons] at this
        omega
      exact ⟨rfl, spansTo_length_iff.1 h⟩

theorem startsHold_first :
    g.StartsHold (a :: word) word.length
      (PlaceRow.add (Array.replicate g.symbols.size ∅) (word.length + 1)
        (g.headsOfTerminal a)) where
  size_eq := by rw [size_add, size_blank]
  mem_iff i s := by
    have hnot : ¬g.Spans word i word.length s := fun h => Nat.not_lt.2 h.le h.lt
    rw [mem_places_add_blank, ← parses_singleton_iff, spans_cons_iff, or_iff_right hnot,
      spansTo_length_iff]

theorem mem_headsOfSplits_iff (hn : n < word.length) (hends : g.EndsHold (a :: word) (n + 1) ends)
    (hstarts : g.StartsHold word n starts) :
    s < g.symbols.size ∧ s ∈ headsOfSplits g.pairRules ends starts ↔ g.SpansTo (a :: word) n s := by
  rw [spansTo_iff_of_lt hn, mem_headsOfSplits]
  simp only [hends.mem_iff, hstarts.mem_iff]
  constructor
  · rintro ⟨hs, b, c, hpair, i, ⟨-, hb⟩, hc⟩
    exact ⟨hs, b, c, hpair, i, hb, hc⟩
  · rintro ⟨hs, b, c, hpair, i, hb, hc⟩
    exact ⟨hs, b, c, hpair, i, ⟨hc.lt, hb⟩, hc⟩

theorem StartsHold.add {heads : List SymbolId} (h : g.StartsHold word n starts)
    (hheads : ∀ s, s < g.symbols.size ∧ s ∈ heads ↔ g.SpansTo (a :: word) n s) :
    g.StartsHold (a :: word) n (starts.add (word.length + 1) heads) where
  size_eq := by rw [size_add, h.size_eq]
  mem_iff i s := by
    rw [mem_places_add, h.mem_iff, h.size_eq, and_comm (a := s ∈ heads), hheads, spans_cons_iff]

theorem EndsHold.add {heads : List SymbolId} (h : g.EndsHold word (n + 1) ends)
    (hheads : ∀ s, s < g.symbols.size ∧ s ∈ heads ↔ g.SpansTo word n s) :
    g.EndsHold word n (ends.add n heads) where
  size_eq := by rw [size_add, h.size_eq]
  mem_iff i s := by
    rw [mem_places_add, h.mem_iff, h.size_eq, and_comm (a := s ∈ heads), hheads]
    constructor
    · rintro (⟨hi, hspan⟩ | ⟨rfl, hspan⟩)
      · exact ⟨Nat.le_of_succ_le hi, hspan⟩
      · exact ⟨Nat.le_refl _, hspan⟩
    · rintro ⟨hi, hspan⟩
      rcases Nat.eq_or_lt_of_le hi with rfl | hi
      · exact Or.inr ⟨rfl, hspan⟩
      · exact Or.inl ⟨hi, hspan⟩

theorem RowsHold.addSpans (hrows : g.RowsHold word n rows) (hn : n ≤ word.length)
    (hends : g.EndsHold (a :: word) n ends) :
    g.RowsHold (a :: word) n (addSpans g.pairRules (word.length + 1) n ends rows) := by
  induction hrows generalizing ends with
  | nil => exact .nil
  | cons hrow _ ih =>
    have hheads := fun s => mem_headsOfSplits_iff (s := s) hn hends hrow
    exact .cons (hrow.add hheads) (ih (Nat.le_of_succ_le hn) (hends.add hheads))

/-- The rows hold the spans of the word. -/
theorem rowsHold_spanRows (word : Form) :
    g.RowsHold word word.length (g.spanRows g.pairRules word) := by
  induction word with
  | nil => exact .nil
  | cons a word ih => exact .cons startsHold_first (ih.addSpans (Nat.le_refl _) endsHold_first)

theorem RowsHold.getLast? (h : g.RowsHold word n rows) (hn : 0 < n) :
    ∃ row, rows.getLast? = some row ∧ g.StartsHold word 0 row := by
  induction h with
  | nil => exact absurd hn (Nat.lt_irrefl 0)
  | @cons n row rows hrow hrows ih =>
    cases hrows with
    | nil => exact ⟨row, rfl, hrow⟩
    | cons _ _ =>
      obtain ⟨last, hlast, hhold⟩ := ih (Nat.succ_pos _)
      exact ⟨last, by rwa [List.getLast?_cons_cons], hhold⟩

end Rows

theorem spans_length_zero_iff : g.Spans word word.length 0 s ↔ g.Parses s word := by
  constructor
  · rintro ⟨before, rest, rfl, hlen, u, y, rfl, hy, hu⟩
    obtain rfl := List.length_eq_zero_iff.1 hy
    obtain rfl : before = [] := by
      simp only [List.length_append] at hlen
      exact List.length_eq_zero_iff.1 (by omega)
    rwa [List.nil_append, List.append_nil]
  · exact fun h => ⟨[], word, rfl, rfl, word, [], (List.append_nil word).symm, rfl, h⟩

theorem derivesWord_nil : g.derivesWord [] ↔ [] ∈ g.alternatives g.start := by
  simp [derivesWord, spanRows]

theorem derivesWord_iff (hword : word ≠ []) : g.derivesWord word ↔ g.Parses g.start word := by
  obtain ⟨row, hrow, hhold⟩ :=
    (rowsHold_spanRows (g := g) word).getLast? (List.length_pos_iff.2 hword)
  rw [derivesWord, hrow, decide_eq_true_iff, hhold.mem_iff, spans_length_zero_iff]

/-- Spans are found only for words that are derived. -/
theorem expands_of_derivesWord (h : g.derivesWord word) : g.Expands [g.start] word := by
  by_cases hword : word = []
  · subst hword
    exact .of_rule (derivesWord_nil.1 h) .nil
  · exact ((derivesWord_iff hword).1 h).expands

theorem terminalsNamed?_eq_some_iff : g.terminalsNamed? w = some word ↔
    (∀ a ∈ word, g.isTerminal a) ∧ word.map g.symbols.name? = w.map some := by
  induction w generalizing word with
  | nil =>
    rw [terminalsNamed?, List.mapM_nil, List.map_nil, List.map_eq_nil_iff]
    constructor
    · intro h
      cases h
      exact ⟨nofun, rfl⟩
    · rintro ⟨-, rfl⟩
      rfl
  | cons x w ih =>
    have hmap : g.terminalsNamed? (x :: w) = (do
        let a ← (g.symbols.lookup? x).filter g.isTerminal
        let word ← g.terminalsNamed? w
        return a :: word) := List.mapM_cons
    rw [hmap]
    simp only [Option.bind_eq_bind, Option.bind_eq_some_iff, Option.pure_def, Option.some.injEq, ih,
      Option.filter_eq_some_iff, SymbolTable.lookup?_eq_some_iff]
    constructor
    · rintro ⟨a, ⟨hname, ha⟩, word, ⟨hword, hnames⟩, rfl⟩
      refine ⟨List.forall_mem_cons.2 ⟨ha, hword⟩, ?_⟩
      rw [List.map_cons, List.map_cons, hname, hnames]
    · rintro ⟨hword, hnames⟩
      cases word with
      | nil => cases hnames
      | cons a word =>
        obtain ⟨hname, hnames⟩ := List.cons.inj hnames
        obtain ⟨ha, hword⟩ := List.forall_mem_cons.1 hword
        exact ⟨a, ⟨hname, ha⟩, word, ⟨hword, hnames⟩, rfl⟩

theorem recognizes_iff : g.recognizes w ↔ ∃ word, (∀ a ∈ word, g.isTerminal a) ∧
    word.map g.symbols.name? = w.map some ∧ g.derivesWord word := by
  simp only [← and_assoc, ← terminalsNamed?_eq_some_iff]
  unfold recognizes
  cases g.terminalsNamed? w with
  | none => simp
  | some word => simp

section Normal

variable (hnormal : ∀ lhs, ∀ rhs ∈ g.alternatives lhs, g.isNormal lhs rhs)
include hnormal

theorem not_expands_nil_of_mem {lhs : SymbolId} {rhs : Form} (hrhs : rhs ∈ g.alternatives lhs)
    (hs : s ∈ rhs) : ¬g.Expands [s] [] := by
  intro h
  have hrestrict := h.restrict (p := fun t => ∃ lhs rhs, rhs ∈ g.alternatives lhs ∧ t ∈ rhs)
    (fun {lhs rhs} _ hrule t ht => ⟨lhs, rhs, hrule, ht⟩) (fun t ht => by
      rw [List.mem_singleton.1 ht]
      exact ⟨lhs, rhs, hrhs, hs⟩)
  refine List.cons_ne_nil s [] (hrestrict.eq_nil ?_)
  rintro lhs ⟨⟨lhs', rhs', hrhs', hmem⟩, hnil⟩
  rcases isNormal_iff.1 (hnormal lhs [] hnil) with ⟨_, h, -⟩ | ⟨_, _, h, -⟩ | ⟨-, rfl, hstart⟩
  · cases h
  · cases h
  · exact hstart lhs' rhs' hrhs' hmem

/-- In a grammar in normal form, what derives a nonempty word does so by spans. -/
theorem Consistent.parses_of_expands (hg : g.Consistent) (hs : g.symbols.isNonterminal s)
    (h : g.Expands [s] word) (hword : word ≠ []) : g.Parses s word := by
  induction hlen : word.length using Nat.strong_induction_on generalizing word s with
  | _ n ih =>
    subst hlen
    obtain ⟨rhs, hrhs, hexp⟩ := h.exists_rule (SymbolTable.not_isTerminal_of_isNonterminal hs)
    have hlt := SymbolTable.lt_size_of_isNonterminal hs
    rcases isNormal_iff.1 (hnormal s rhs hrhs) with
      ⟨a, rfl, ha⟩ | ⟨b, c, rfl, hb, hc⟩ | ⟨rfl, -, -⟩
    · rcases expands_singleton_iff.1 hexp with ⟨-, rfl⟩ | ⟨rhs, hmem, -⟩
      · exact .terminal hlt hrhs ha
      · exact absurd ha (hg.not_isTerminal_lhs hmem)
    · obtain ⟨x, y, rfl, hx, hy⟩ := Expands.exists_append (u := [b]) hexp
      have hxne : x ≠ [] := by
        rintro rfl
        exact not_expands_nil_of_mem hnormal hrhs List.mem_cons_self hx
      have hyne : y ≠ [] := by
        rintro rfl
        exact not_expands_nil_of_mem hnormal hrhs (List.mem_cons_of_mem b List.mem_cons_self) hy
      have hxpos := List.length_pos_iff.2 hxne
      have hypos := List.length_pos_iff.2 hyne
      rw [List.length_append] at ih
      exact .pair hlt hrhs hb hc (ih x.length (by omega) hb hx hxne rfl)
        (ih y.length (by omega) hc hy hyne rfl)
    · exact absurd (expands_nil_iff.1 hexp) hword

theorem Consistent.derivesWord_of_expands (hg : g.Consistent) (h : g.Expands [g.start] word) :
    g.derivesWord word := by
  by_cases hword : word = []
  · subst hword
    obtain ⟨rhs, hrhs, hexp⟩ := h.exists_rule hg.not_isTerminal_start
    cases rhs with
    | nil => exact derivesWord_nil.2 hrhs
    | cons s rhs =>
      obtain ⟨x, y, hnil, hx, -⟩ := Expands.exists_append (u := [s]) hexp
      rw [(List.append_eq_nil_iff.1 hnil.symm).1] at hx
      exact absurd hx (not_expands_nil_of_mem hnormal hrhs List.mem_cons_self)
  · exact (derivesWord_iff hword).2 (hg.parses_of_expands hnormal hg.isNonterminal_start h hword)

end Normal

theorem generates_of_recognizes {w : List String} (h : g.recognizes w) : g.Generates w := by
  obtain ⟨word, -, hnames, hword⟩ := recognizes_iff.1 h
  exact generatesFrom_iff.2 ⟨word, expands_of_derivesWord hword, hnames⟩

theorem Consistent.recognizes_iff_generates (hg : g.Consistent)
    (hnormal : ∀ lhs, ∀ rhs ∈ g.alternatives lhs, g.isNormal lhs rhs) {w : List String} :
    g.recognizes w ↔ g.Generates w := by
  refine ⟨generates_of_recognizes, fun h => ?_⟩
  obtain ⟨word, hword, hnames⟩ := generatesFrom_iff.1 h
  exact recognizes_iff.2 ⟨word, hword.forall_terminal, hnames,
    hg.derivesWord_of_expands hnormal hword⟩

/-- Membership by spans holds only of words of the language, and in normal form of all of them. -/
theorem recognizes_spec :
    (∀ w, g.recognizes w → g.Generates w) ∧
      (g.Obtainable → g.isChomskyNormalForm → ∀ w, g.recognizes w ↔ g.Generates w) := by
  refine ⟨fun w => generates_of_recognizes, fun hg hnormal w => ?_⟩
  exact hg.consistent.recognizes_iff_generates (isChomskyNormalForm_iff.1 hnormal)

/-- As many letters `a` as letters `b` after them, at least one of each. -/
def balancedText : String := "S -> A T | A B\nT -> S B\nA -> a\nB -> b"

theorem isChomskyNormalForm_balanced : (Grammar.parse balancedText).map (fun g =>
    (g.isChomskyNormalForm, g.recognizes ["a", "a", "b", "b"])) = .ok (true, true) := by
  decide +kernel

theorem recognizes_spec_balanced : ∃ g, Grammar.parse balancedText = .ok g ∧
    g.isChomskyNormalForm ∧ (∀ w, g.recognizes w ↔ g.Generates w) ∧
      g.Generates ["a", "a", "b", "b"] := by
  obtain ⟨g, hg, heq⟩ := map_eq_ok_iff.1 isChomskyNormalForm_balanced
  obtain ⟨hnormal, hword⟩ := Prod.mk.inj heq
  have hiff := recognizes_spec.2 (.parse hg) hnormal
  exact ⟨g, hg, hnormal, hiff, (hiff _).1 hword⟩

end Chomsky.Grammar
