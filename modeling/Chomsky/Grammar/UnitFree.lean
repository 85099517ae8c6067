import Chomsky.Data.Numbering
import Chomsky.Grammar.Basic

/-! # Grammars without unit productions

A unit production `A -> B` is replaced by the alternatives of `B`, in rounds. A cycle of unit
productions through two or more nonterminals is refused; it is found by a search in depth.
-/

namespace Chomsky.Grammar
variable (g : Grammar)

def unitTarget? : Form → Option SymbolId
  | [b] => if g.isTerminal b then none else some b
  | _ => none

def unitTargets (lhs : SymbolId) : List SymbolId :=
  ((g.alternatives lhs).filterMap g.unitTarget?).filter (· != lhs)

/-- Search in depth from a node. `path` holds the nodes that lead to it, the last one first,
and `done` those whose search is over. A cycle is the outcome `error`. -/
def searchCycle (next : SymbolId → List SymbolId) :
    Nat → List SymbolId → List SymbolId → SymbolId → Except (List SymbolId) (List SymbolId)
  | 0, _, done, _ => .ok done
  | fuel + 1, path, done, node => do
    let path := node :: path
    let done ← (next node).foldlM (fun done target =>
      if target ∈ path then
        .error (target :: (path.takeWhile (· != target)).reverse ++ [target])
      else if target ∈ done then .ok done
      else searchCycle next fuel path done target) done
    return node :: done

/-- A cycle of unit productions through two or more nonterminals, its first member twice. -/
def unitCycle? : Option (List SymbolId) :=
  let search := g.productions.keys.foldlM (fun done root =>
    if root ∈ done then .ok done
    else searchCycle g.unitTargets (g.symbols.size + 1) [] done root) []
  match search with
  | .error cycle => some cycle
  | .ok _ => none

/-- What replaces an alternative: itself, or the nonempty alternatives of the nonterminal
that it consists of. -/
def unitReplacements (ps : Productions) (lhs : SymbolId) (rhs : Form) : List Form :=
  match g.unitTarget? rhs with
  | none => [rhs]
  | some b => if b = lhs then [] else (ps.alternatives b).filter (!·.isEmpty)

def replaceUnits (ps : Productions) : Productions :=
  ps.mapValues fun lhs alts => distinct (alts.flatMap (g.unitReplacements ps lhs))

def hasUnit (alts : List Form) : Bool := alts.any fun rhs => (g.unitTarget? rhs).isSome

/-- Rounds of replacements until no unit production was there, at most `fuel` of them. -/
def replaceUnitsWithin : Nat → Productions → Except LanguageError Productions
  | 0, ps =>
    .error <| .unitCycle <| (ps.entries.filter fun (_, alts) => g.hasUnit alts).map fun (lhs, _) =>
      g.name lhs
  | fuel + 1, ps =>
    if ps.values.any g.hasUnit then replaceUnitsWithin fuel (g.replaceUnits ps)
    else .ok (g.replaceUnits ps)

def eliminateUnits : Except LanguageError Grammar :=
  match g.unitCycle? with
  | some cycle => .error (.unitCycle (cycle.map g.name))
  | none =>
    (g.replaceUnitsWithin (g.productions.size * g.productions.size + 1) g.productions).map
      (.ofProductions g.symbols g.start)

end Chomsky.Grammar
