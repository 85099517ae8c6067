import Chomsky.Grammar.Definition

/-! # Grammars as text

One rule a line, `S -> a B | A C | ε`. Symbols stand between blanks; an alternative without
symbols is the empty word. Empty lines and lines that start with `#` say nothing.
-/

namespace Chomsky

namespace GrammarDefinition

/-- The symbols of an alternative; the sign for the empty word is none. -/
def symbolsOf (s : List Char) : List String :=
  ((Text.words s).map String.ofList).filter (· != epsilon)

def rulesOf (line : List Char) : Except LanguageError (List (String × List String)) :=
  match Text.cutAtArrow line with
  | none => .error (.malformedRule (String.ofList line))
  | some (before, after) =>
    let lhs := Text.trim before
    if lhs.isEmpty || lhs.any Text.isBlank then .error (.malformedRule (String.ofList line))
    else .ok <| (Text.pieces (· == '|') after).map fun alt => (String.ofList lhs, symbolsOf alt)

def ruleLines (text : String) : List (List Char) :=
  ((Text.pieces (· == '\n') text.toList).map Text.trim).filter fun line =>
    !line.isEmpty && line.head? != some '#'

def ofText (text : String) : Except LanguageError GrammarDefinition := do
  let rules ← (ruleLines text).mapM rulesOf
  return { rules := rules.flatten }

end GrammarDefinition

namespace Grammar

/-- The grammar that a text defines; its first left-hand side is the start symbol. -/
def parse (text : String) : Except LanguageError Grammar := do
  let d ← GrammarDefinition.ofText text
  d.build

def renderEntry (g : Grammar) (lhs : SymbolId) (alts : List Form) : String :=
  g.name lhs ++ " -> " ++ " | ".intercalate (alts.map g.symbols.render) ++ "\n"

def render (g : Grammar) : String :=
  String.join <| g.productions.entries.map fun (lhs, alts) => g.renderEntry lhs alts

end Grammar
end Chomsky
