import FluentShift.Source.Rules

/-!
# FluentShift.Source.Parse - from text to tree

`parseModule?` reads a whole text as statements, `parseExpression?` one expression.  A byte order mark and form feeds
right at the start of a text are not part of its tree.
-/

namespace FluentShift.Source

/-- A text without the byte order mark and the form feeds it starts with. -/
def trimStart (text : String) : String :=
  let cs := text.toList
  let cs := if cs.take 1 = ['\ufeff'] then cs.drop 1 else cs
  String.ofList (cs.dropWhile (· = '\x0c'))

/-- The tokens of a text. -/
def tokens? (text : String) : Option (List Token) :=
  match lexemes text with
  | .error _ => none
  | .ok ls =>
    match Token.ofLeaves? ls with
    | .error _ => none
    | .ok ts => some ts

/-- The steps a grammar may nest for `n` tokens: no rule goes through itself without reading a token, and a chain of
rules that read nothing is shorter than the factor. -/
def parseFuel (n : Nat) : Nat := 400 * (n + 1)

/-- Reads tokens as a whole module. -/
def moduleOfTokens? (ts : List Token) : Option Tree := do
  let (trees, rest) ← Grammar.run Rule.meaning (parseFuel ts.length) (.rule .module) ts
  match trees, rest with
  | [t], [] => some t
  | ls, [] =>
    match ls.getLast? with
    | some (.node k ts) => some (.node k (ls.dropLast ++ ts))
    | _ => none
  | _, _ => none

/-- Reads a whole module; `Call`s inside calls, classes and the like are checked for their argument lists. -/
def parseModule? (text : String) : Option Tree :=
  tokens? (trimStart text) >>= moduleOfTokens?

/-- Reads one expression that is alone on its lines. -/
def parseExpression? (text : String) : Option Tree := do
  let ts ← tokens? (trimStart text)
  let (trees, rest) ← Grammar.run Rule.meaning (parseFuel ts.length) (.rule .starExprs) ts
  match trees.filter (!·.isTrivia), rest with
  | [t], [⟨_, .leaf l⟩, ⟨_, .done⟩] => if l.kind = .endOfLine then some t else none
  | _, _ => none

end FluentShift.Source
