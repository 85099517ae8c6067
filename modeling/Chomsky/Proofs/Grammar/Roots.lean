import Chomsky.Proofs.Grammar.Trim

/-! # Where the variables of a binary grammar are used

The definitions of variables are those to which the definitions lead from the binary right-hand
sides (`Variables.Rooted`). So every variable is reached like the symbols before
(`Binarization.reached`), and reads as symbols in use (`Binarization.exists_reads`).
-/

namespace Chomsky

open Relation (ReflTransGen)

namespace Variables

variable {t : SymbolTable} {used : SymbolId → Prop} {stem : String} {v v' v'' : Variables}
  {id a b s : SymbolId} {form rhs rhs' rest roots roots' f : Form} {n : Nat}

def Leads (v : Variables) (a b : SymbolId) : Prop := ∃ rhs, (a, rhs) ∈ v.definitions ∧ b ∈ rhs

/-- Later variables: all new definitions are those of symbols to which the definitions lead from the
roots. -/
structure Rooted (v v' : Variables) (roots : Form) : Prop where
  mono : ∀ {d}, d ∈ v.definitions → d ∈ v'.definitions
  new : ∀ {d}, d ∈ v'.definitions → d ∈ v.definitions ∨ ∃ s ∈ roots, ReflTransGen v'.Leads s d.1

theorem Rooted.of_eq (h : v'.definitions = v.definitions) : Rooted v v' roots where
  mono hd := h ▸ hd
  new hd := Or.inl (h ▸ hd)

theorem reflTransGen_leads_mono (h : ∀ {d}, d ∈ v.definitions → d ∈ v'.definitions)
    (hchain : ReflTransGen v.Leads a b) : ReflTransGen v'.Leads a b :=
  hchain.mono (fun _ _ ⟨rhs, hdef, hmem⟩ => ⟨rhs, h hdef, hmem⟩) _ _

theorem Rooted.trans (h : Rooted v v' roots) (h' : Rooted v' v'' roots') :
    Rooted v v'' (roots ++ roots') where
  mono hd := h'.mono (h.mono hd)
  new hd := by
    rcases h'.new hd with hd | ⟨s, hs, hchain⟩
    · rcases h.new hd with hd | ⟨s, hs, hchain⟩
      · exact Or.inl hd
      · exact Or.inr ⟨s, List.mem_append_left _ hs, reflTransGen_leads_mono h'.mono hchain⟩
    · exact Or.inr ⟨s, List.mem_append_right _ hs, hchain⟩

theorem Rooted.of_leads (h : Rooted v v' roots)
    (hroots : ∀ s ∈ roots, ∃ s' ∈ roots', ReflTransGen v'.Leads s' s) : Rooted v v' roots' where
  mono := h.mono
  new hd := by
    rcases h.new hd with hd | ⟨s, hs, hchain⟩
    · exact Or.inl hd
    · obtain ⟨s', hs', hchain'⟩ := hroots s hs
      exact Or.inr ⟨s', hs', hchain'.trans hchain⟩

theorem mem_define_of_mem {d : SymbolId × Form} (h : d ∈ v.definitions) :
    d ∈ (v.define id rhs).definitions := mem_define_iff.2 (Or.inl h)

theorem Rooted.define (h : Rooted v v' roots) (hrhs : ∀ s ∈ roots, s ∈ rhs) :
    Rooted v (v'.define id rhs) [id] where
  mono hd := mem_define_of_mem (h.mono hd)
  new hd := by
    rcases mem_define_iff.1 hd with hd | rfl
    · rcases h.new hd with hd | ⟨s, hs, hchain⟩
      · exact Or.inl hd
      · have hstep : (v'.define id rhs).Leads id s :=
          ⟨rhs, mem_define_iff.2 (Or.inr rfl), hrhs s hs⟩
        exact Or.inr ⟨id, List.mem_cons_self,
          .head hstep (reflTransGen_leads_mono mem_define_of_mem hchain)⟩
    · exact Or.inr ⟨id, List.mem_cons_self, .refl⟩

theorem rooted_define (h : v'.definitions = v.definitions) : Rooted v (v'.define id rhs) [id] :=
  (Rooted.of_eq h : Rooted v v' []).define nofun

theorem definitions_fresh (h : v.fresh stem = .ok (id, v')) : v'.definitions = v.definitions := by
  obtain ⟨symbols, counter, -, rfl⟩ := fresh_eq_ok h
  rfl

theorem rooted_forTerminal (h : v.forTerminal stem a = .ok (id, v')) : Rooted v v' [id] := by
  unfold forTerminal at h
  split at h
  · cases h
    exact .of_eq rfl
  · obtain ⟨⟨id, v₁⟩, hfresh, h⟩ := bind_eq_ok_iff.1 h
    obtain ⟨rfl, rfl⟩ := Prod.mk.inj (pure_eq_ok_iff.1 h)
    have hsame := definitions_fresh hfresh
    exact rooted_define hsame

theorem rooted_forChain (h : v.forChain stem a b rest = .ok (id, v')) : Rooted v v' [id] := by
  induction rest generalizing v a b id v' with
  | nil =>
    unfold forChain at h
    split at h
    · cases h
      exact .of_eq rfl
    · obtain ⟨⟨id, v₁⟩, hfresh, h⟩ := bind_eq_ok_iff.1 h
      obtain ⟨rfl, rfl⟩ := Prod.mk.inj (pure_eq_ok_iff.1 h)
      have hsame := definitions_fresh hfresh
      exact rooted_define hsame
  | cons c rest ih =>
    unfold forChain at h
    split at h
    · cases h
      exact .of_eq rfl
    · obtain ⟨⟨id, v₁⟩, hfresh, h⟩ := bind_eq_ok_iff.1 h
      obtain ⟨⟨tail, v₂⟩, hchain, h⟩ := bind_eq_ok_iff.1 h
      obtain ⟨rfl, rfl⟩ := Prod.mk.inj (pure_eq_ok_iff.1 h)
      have hsame := definitions_fresh hfresh
      have hfold : Rooted v (v₁.fold (a :: b :: c :: rest) id) [] := .of_eq hsame
      refine (hfold.trans (ih hchain)).define fun s hs => ?_
      exact List.mem_cons_of_mem a hs

theorem rooted_liftAll (h : v.liftAll stem rhs = .ok (form, v')) : Rooted v v' form := by
  induction rhs generalizing v form with
  | nil =>
    cases h
    exact .of_eq rfl
  | cons s rhs ih =>
    rw [liftAll_cons] at h
    obtain ⟨⟨id, v₁⟩, hsymbol, h⟩ := bind_eq_ok_iff.1 h
    obtain ⟨⟨form, v₂⟩, hrest, h⟩ := bind_eq_ok_iff.1 h
    obtain ⟨rfl, rfl⟩ := Prod.mk.inj (pure_eq_ok_iff.1 h)
    have hfirst : Rooted v v₁ [id] := by
      split at hsymbol
      · exact rooted_forTerminal hsymbol
      · cases hsymbol
        exact .of_eq rfl
    exact hfirst.trans (ih hrest)

theorem Invariant.leads_folded (hv : v.Invariant t used []) (hid : v.folded? form = some id) :
    ∀ s ∈ form, ReflTransGen v.Leads id s := by
  induction form generalizing id with
  | nil => exact nofun
  | cons a rest ih =>
    intro s hs
    cases (hv.folded hid).2.resolve_left List.not_mem_nil with
    | pair hdef => exact .single ⟨_, hdef, hs⟩
    | chain htail hdef =>
      rcases List.mem_cons.1 hs with rfl | hs
      · exact .single ⟨_, hdef, List.mem_cons_self⟩
      · exact .head ⟨_, hdef, by simp⟩ (ih htail s hs)

theorem Invariant.rooted_binarize (hv : v.Invariant t used [])
    (hrhs : ∀ s ∈ rhs, s < t.size ∧ used s) (h : v.binarize stem rhs = .ok (rhs', v')) :
    Rooted v v' rhs' := by
  unfold Variables.binarize at h
  split at h
  · cases h
    exact .of_eq rfl
  · obtain ⟨⟨form, v₁⟩, hlift, h⟩ := bind_eq_ok_iff.1 h
    obtain ⟨hv₁, -, hform, -⟩ := hv.liftAll hrhs hlift
    have hroots := rooted_liftAll hlift
    dsimp only at h
    split at h
    · next a b c rest =>
      obtain ⟨⟨tail, v₂⟩, hchain, h⟩ := bind_eq_ok_iff.1 h
      obtain ⟨rfl, rfl⟩ := Prod.mk.inj (pure_eq_ok_iff.1 h)
      obtain ⟨-, hrest⟩ := List.forall_mem_cons.1 hform
      obtain ⟨hb, hrest⟩ := List.forall_mem_cons.1 hrest
      obtain ⟨hc, hrest⟩ := List.forall_mem_cons.1 hrest
      obtain ⟨hv₂, -, htail⟩ := hv₁.forChain hb hc hrest hchain
      refine (hroots.trans (rooted_forChain hchain)).of_leads fun s hs => ?_
      rcases List.mem_append.1 hs with hs | hs
      · rcases List.mem_cons.1 hs with rfl | hs
        · exact ⟨s, List.mem_cons_self, .refl⟩
        · exact ⟨tail, by simp, hv₂.leads_folded htail s hs⟩
      · exact ⟨s, List.mem_cons_of_mem a hs, .refl⟩
    · obtain ⟨rfl, rfl⟩ := Prod.mk.inj (pure_eq_ok_iff.1 h)
      exact hroots

theorem Invariant.rooted_binarizeAll {alts alts' : List Form} (hv : v.Invariant t used [])
    (halts : ∀ rhs ∈ alts, ∀ s ∈ rhs, s < t.size ∧ used s)
    (h : v.binarizeAll stem alts = .ok (alts', v')) : Rooted v v' alts'.flatten := by
  induction alts generalizing v alts' with
  | nil =>
    cases h
    exact .of_eq rfl
  | cons rhs alts ih =>
    obtain ⟨⟨rhs', v₁⟩, hbinarize, h⟩ := bind_eq_ok_iff.1 h
    obtain ⟨⟨alts', v₂⟩, hrest, h⟩ := bind_eq_ok_iff.1 h
    obtain ⟨rfl, rfl⟩ := Prod.mk.inj (pure_eq_ok_iff.1 h)
    obtain ⟨hrhs, halts⟩ := List.forall_mem_cons.1 halts
    obtain ⟨hv₁, -⟩ := hv.binarize hrhs hbinarize
    exact (hv.rooted_binarize hrhs hbinarize).trans (ih hv₁ halts hrest)

theorem Invariant.rooted_binarizeEntries {entries entries' : List (SymbolId × List Form)}
    (hv : v.Invariant t used [])
    (hentries : ∀ entry ∈ entries, ∀ rhs ∈ entry.2, ∀ s ∈ rhs, s < t.size ∧ used s)
    (h : v.binarizeEntries stem entries = .ok (entries', v')) :
    Rooted v v' (entries'.flatMap fun entry => entry.2.flatten) := by
  induction entries generalizing v entries' with
  | nil =>
    cases h
    exact .of_eq rfl
  | cons entry entries ih =>
    obtain ⟨⟨alts', v₁⟩, halts, h⟩ := bind_eq_ok_iff.1 h
    obtain ⟨⟨entries', v₂⟩, hrest, h⟩ := bind_eq_ok_iff.1 h
    obtain ⟨rfl, rfl⟩ := Prod.mk.inj (pure_eq_ok_iff.1 h)
    obtain ⟨hlt, hentries⟩ := List.forall_mem_cons.1 hentries
    obtain ⟨hv₁, -⟩ := hv.binarizeAll hlt halts
    have hroots : Rooted v v₁ (distinct alts').flatten :=
      (hv.rooted_binarizeAll hlt halts).of_leads fun s hs => ⟨s, by simpa using hs, .refl⟩
    exact hroots.trans (ih hv₁ hentries hrest)

theorem exists_leads_of_reads (h : v.Reads n form f) (hs : s ∈ f) :
    ∃ x ∈ form, ReflTransGen v.Leads x s := by
  induction h with
  | nil => cases hs
  | @terminal a _ _ _ _ ih =>
    rcases List.mem_cons.1 hs with rfl | hs
    · exact ⟨s, List.mem_cons_self, .refl⟩
    · obtain ⟨x, hx, hchain⟩ := ih hs
      exact ⟨x, List.mem_cons_of_mem _ hx, hchain⟩
  | @expand id rhs _ _ _ hdef _ _ ih ih' =>
    rcases List.mem_append.1 hs with hs | hs
    · obtain ⟨x, hx, hchain⟩ := ih hs
      exact ⟨id, List.mem_cons_self, .head ⟨rhs, hdef, hx⟩ hchain⟩
    · obtain ⟨x, hx, hchain⟩ := ih' hs
      exact ⟨x, List.mem_cons_of_mem _ hx, hchain⟩

theorem exists_reads_of_mem (h : v.Reads n form f) (hs : s ∈ form) :
    ∃ f', f' ⊆ f ∧ v.Reads n [s] f' := by
  obtain ⟨x, y, rfl⟩ := List.append_of_mem hs
  obtain ⟨p, q, rfl, -, hq⟩ := h.exists_append
  obtain ⟨f', r, rfl, hf', -⟩ := hq.exists_append (u := [s])
  exact ⟨f', by simp, hf'⟩

/-- A symbol to which definitions lead reads as a part of what the symbol before reads as. -/
theorem Invariant.exists_reads_of_leads (hv : v.Invariant t used [])
    (hchain : ReflTransGen v.Leads a b) (h : v.Reads t.size [a] f) :
    ∃ f', f' ⊆ f ∧ v.Reads t.size [b] f' := by
  induction hchain with
  | refl => exact ⟨f, List.Subset.refl f, h⟩
  | tail _ hleads ih =>
    obtain ⟨g, hg, hreads⟩ := ih
    obtain ⟨rhs, hdef, hmem⟩ := hleads
    obtain ⟨rhs', hdef', hrhs'⟩ := hreads.exists_rule (Nat.not_lt.2 (hv.lhs hdef).1)
    rw [hv.eq_of_mem hdef' hdef] at hrhs'
    obtain ⟨f', hf', hreads'⟩ := exists_reads_of_mem hrhs' hmem
    exact ⟨f', List.Subset.trans hf' hg, hreads'⟩

end Variables

namespace Grammar

variable {g s b : Grammar} {t : SymbolTable} {start lhs a x : SymbolId} {ps : Productions}
  {names : NormalFormNames} {v : Variables} {f w : Form} {entries : List (SymbolId × List Form)}

/-- A binary grammar whose variables are all in use. -/
structure Binarization (s b : Grammar) (v : Variables) : Prop extends BinaryOf s b v where
  key : ∀ {lhs}, lhs ∈ b.productions.keys →
    lhs ∈ s.productions.keys ∨ ∃ rhs, (lhs, rhs) ∈ v.definitions
  nonterminal : ∀ {a}, a ∈ b.nonterminals →
    a = b.start ∨ a ∈ b.productions.keys ∨ ∃ lhs, b.Mentions lhs a
  rooted : ∀ {id rhs}, (id, rhs) ∈ v.definitions → ∃ lhs a f, lhs ∈ s.productions.keys ∧
    b.Mentions lhs a ∧ v.Reads s.symbols.size [a] f ∧ (∀ x ∈ f, s.occursOnRight x) ∧
      ReflTransGen v.Leads a id

theorem Separates.binarization (hsep : Separates g t start ps)
    (h : Variables.binarizeEntries names.stem { symbols := t } ps.entries = .ok (entries, v)) :
    Binarization (ofProductions t start ps)
      (ofProductions v.symbols start
        (v.definitions.toList.foldl (fun ps (lhs, rhs) => ps.add lhs rhs) (.ofList entries)))
      v := by
  obtain ⟨hv, hforall⟩ := hsep.invariant_binarizeEntries h
  have hentries := Variables.entries_ofList_of_forall₂ hforall
  have hrooted := Variables.invariant_initial.rooted_binarizeEntries hsep.used_of_mem_entries h
  refine ⟨hsep.binaryOf h, fun {lhs} hlhs => ?_, fun {a} ha => ?_, fun {id rhs} hdef => ?_⟩
  · rcases Productions.mem_keys_foldl_add_iff.1 hlhs with hlhs | ⟨rhs, hdef⟩
    · rw [OrderedMap.keys, hentries, Variables.map_fst_of_forall₂ hforall] at hlhs
      exact Or.inl hlhs
    · exact Or.inr ⟨rhs, Array.mem_toList_iff.1 hdef⟩
  · rcases mem_nonterminals_ofProductions.1 ha with rfl | ha | ⟨-, lhs, rhs, hrhs, hmem⟩
    · exact Or.inl rfl
    · exact Or.inr (Or.inl ha)
    · exact Or.inr (Or.inr ⟨lhs, rhs, hrhs, hmem⟩)
  · obtain ⟨x, hx, hchain⟩ := (hrooted.new hdef).resolve_left (Array.not_mem_empty _)
    obtain ⟨⟨lhs, alts'⟩, hentry', hx⟩ := List.mem_flatMap.1 hx
    obtain ⟨rhs', hrhs', hx⟩ := List.mem_flatten.1 hx
    obtain ⟨⟨lhs', alts⟩, hentry, hbin⟩ := (exists_of_forall₂ hforall).2 _ hentry'
    obtain rfl : lhs = lhs' := hbin.key
    obtain ⟨rhs, hrhs, hbinarizes⟩ := hbin.back rhs' hrhs'
    obtain ⟨f, hf, hreads⟩ := Variables.exists_reads_of_mem hbinarizes.reads hx
    have hmem : rhs' ∈ Productions.alternatives (.ofList entries) lhs :=
      Productions.mem_alternatives_iff_exists_entry.2 ⟨alts', hentries.symm ▸ hentry', hrhs'⟩
    refine ⟨lhs, x, f, List.mem_map_of_mem hentry, ⟨rhs', ?_, hx⟩, hreads, fun y hy => ?_, hchain⟩
    · exact Productions.mem_alternatives_foldl_add_iff.2 (Or.inl hmem)
    · exact (hsep.used_of_mem_entries _ hentry rhs hrhs y (hf hy)).2

namespace Binarization

variable (h : Binarization s b v)
include h

theorem mentions_of_leads (hleads : v.Leads a x) : b.Mentions a x := by
  obtain ⟨rhs, hdef, hmem⟩ := hleads
  exact ⟨rhs, h.definition hdef, hmem⟩

theorem mentions_of_chain (hchain : ReflTransGen v.Leads a x) : ReflTransGen b.Mentions a x :=
  hchain.mono (fun _ _ => h.mentions_of_leads) _ _

theorem mentions_of_mentions (hmentions : s.Mentions a x) : ReflTransGen b.Mentions a x := by
  obtain ⟨rhs, hrhs, hx⟩ := hmentions
  obtain ⟨rhs', hrhs', hbinarizes⟩ := h.forth hrhs
  obtain ⟨y, hy, hchain⟩ := Variables.exists_leads_of_reads hbinarizes.reads hx
  exact .head ⟨rhs', hrhs', hy⟩ (h.mentions_of_chain hchain)

section Reached

variable (hs : ∀ lhs ∈ s.productions.keys, ReflTransGen s.Mentions s.start lhs)
include hs

theorem reached_of_mem_keys (hlhs : lhs ∈ b.productions.keys) :
    ReflTransGen b.Mentions b.start lhs := by
  have hold : ∀ {lhs}, lhs ∈ s.productions.keys → ReflTransGen b.Mentions b.start lhs := by
    intro lhs hlhs
    rw [h.start]
    exact Relation.reflTransGen_closed (fun _ _ => h.mentions_of_mentions) _ _ (hs lhs hlhs)
  rcases h.key hlhs with hlhs | ⟨rhs, hdef⟩
  · exact hold hlhs
  · obtain ⟨lhs', a, f, hlhs', hmentions, -, -, hchain⟩ := h.rooted hdef
    exact ((hold hlhs').tail hmentions).trans (h.mentions_of_chain hchain)

/-- Every nonterminal is reached, variables included. -/
theorem reached (ha : a ∈ b.nonterminals) : ReflTransGen b.Mentions b.start a := by
  rcases h.nonterminal ha with rfl | hkey | ⟨lhs, hmentions⟩
  · exact .refl
  · exact h.reached_of_mem_keys hs hkey
  · obtain ⟨rhs, hrhs, -⟩ := id hmentions
    exact (h.reached_of_mem_keys hs (Productions.mem_keys_of_mem_alternatives hrhs)).tail hmentions

end Reached

theorem exists_reads (hmentions : b.Mentions lhs a) :
    ∃ f, v.Reads s.symbols.size [a] f ∧ ∀ x ∈ f, s.occursOnRight x := by
  obtain ⟨rhs', hrhs', ha⟩ := hmentions
  rcases h.back hrhs' with hdef | ⟨rhs, hrhs, hbinarizes⟩
  · obtain ⟨_, root, f, -, -, hreads, hused, hchain⟩ := h.rooted hdef
    have hchain := hchain.tail ⟨_, hdef, ha⟩
    obtain ⟨f', hf', hreads'⟩ := h.invariant.exists_reads_of_leads hchain hreads
    exact ⟨f', hreads', fun x hx => hused x (hf' hx)⟩
  · obtain ⟨f, hf, hreads⟩ := Variables.exists_reads_of_mem hbinarizes.reads ha
    exact ⟨f, hreads, fun x hx => occursOnRight_iff.2 ⟨lhs, rhs, hrhs, hf hx⟩⟩

theorem productive (hs : ∀ x, s.occursOnRight x → ∃ w, s.Expands [x] w)
    (hmentions : b.Mentions lhs a) : ∃ w, b.Expands [a] w := by
  obtain ⟨f, hreads, hused⟩ := h.exists_reads hmentions
  obtain ⟨w, hw⟩ := exists_expands_of_forall fun x hx => hs x (hused x hx)
  exact ⟨w, h.expands_of_reads hreads (h.expands hw)⟩

theorem occursOnRight_of_mentions (ha : b.isTerminal a) (hmentions : b.Mentions lhs a) :
    s.occursOnRight a := by
  obtain ⟨f, hreads, hused⟩ := h.exists_reads hmentions
  cases hreads with
  | terminal _ _ => exact hused a List.mem_cons_self
  | expand hdef _ _ =>
    have hlhs := (h.invariant.lhs hdef).2
    rw [← h.symbols] at hlhs
    exact absurd ha (SymbolTable.not_isTerminal_of_isNonterminal hlhs)

end Binarization

end Grammar
end Chomsky
