import FluentShift.Source.Lexeme

/-!
# FluentShift.Source.Token - leaves grouped into lines and blocks

`Token.ofLeaves?` hangs every piece of trivia on the leaf after it, ends the statements at the line breaks outside
brackets, and marks where indented blocks begin and end.

* An empty line, or one with only a comment, ends no statement and has no indentation.
* Tabs reach to the next multiple of eight; a line whose depth depends on the width of a tab is refused.
* When a block ends, the comment lines up to the last one that is indented like the block still belong to it.
-/

namespace FluentShift.Source

/-- What a token is, apart from the trivia before it. -/
inductive TokenBody where
  | leaf (l : Leaf)
  | indent
  | dedent
  | done
  deriving DecidableEq, Repr, Inhabited

/-- A token and the trivia before it. -/
structure Token where
  lead : List Leaf
  body : TokenBody
  deriving DecidableEq, Repr, Inhabited

/-- Why leaves have no block structure. -/
inductive LayoutFault where
  | unmatchedDedent
  | mixedTabs
  deriving DecidableEq, Repr

/-! ### Indentation -/

/-- The blanks a block starts its lines with, their width with tabs of eight and their width with tabs of one. -/
structure Indent where
  text : String
  wide : Nat
  tight : Nat
  deriving DecidableEq, Repr

/-- The indentation of the outermost statements. -/
def Indent.outer : Indent := ⟨"", 0, 0⟩

/-- The indentation that a run of blanks makes; a form feed starts the count again. -/
def Indent.ofText (text : String) : Indent :=
  let step (w : Nat × Nat) (c : Char) : Nat × Nat :=
    if c = '\t' then ((w.1 / 8 + 1) * 8, w.2 + 1)
    else if c = '\x0c' then (0, 0)
    else (w.1 + 1, w.2 + 1)
  let w := text.toList.foldl step (0, 0)
  ⟨text, w.1, w.2⟩

/-- Trivia cut after every line break; the last part may be an unfinished line. -/
def trivialLines : List Leaf → List (List Leaf)
  | [] => []
  | l :: ls =>
    if l.kind = .lineBreak then [l] :: trivialLines ls
    else match trivialLines ls with
      | [] => [[l]]
      | line :: rest => (l :: line) :: rest

/-- The text of leaves in a row. -/
def leavesText (ls : List Leaf) : String :=
  ls.foldl (fun s l => s ++ l.text) ""

/-- The blanks at the start of the unfinished last line of trivia. -/
def lineIndent (trivia : List Leaf) : Indent :=
  let last := (trivia.reverse.takeWhile fun l => l.kind ≠ .lineBreak).reverse
  match last with
  | l :: _ => if l.kind = .blank then .ofText l.text else .outer
  | [] => .outer

/-- How many of some lines belong to the block that an indentation opened: those up to the last one that starts
with the indentation. -/
def footerLength (i : Indent) (lines : List (List Leaf)) : Nat :=
  lines.length - (lines.reverse.takeWhile fun l => !i.text.toList.isPrefixOf (leavesText l).toList).length

/-- Ends the blocks that are indented deeper than `width`, with the lines that still belong to them. -/
def closeBlocks (width : Nat) : List Indent → List (List Leaf) → List Token × List Indent × List (List Leaf)
  | [], lines => ([], [], lines)
  | i :: is, lines =>
    if width < i.wide then
      let n := footerLength i lines
      let r := closeBlocks width is (lines.drop n)
      (⟨(lines.take n).flatten, .dedent⟩ :: r.1, r.2)
    else ([], i :: is, lines)

/-- The tokens before the first leaf of a line, given the trivia before that leaf: an indent, or dedents. -/
def openLine (blocks : List Indent) (trivia : List Leaf) :
    Except LayoutFault (List Token × List Leaf × List Indent) :=
  let here := lineIndent trivia
  let top := blocks.headD .outer
  if here.wide = top.wide then
    if here.tight = top.tight then .ok ([], trivia, blocks) else .error .mixedTabs
  else if top.wide < here.wide then
    if top.tight < here.tight then .ok ([⟨[], .indent⟩], trivia, here :: blocks) else .error .mixedTabs
  else
    let lines := trivialLines trivia
    let last := (trivia.reverse.takeWhile fun l => l.kind ≠ .lineBreak).reverse
    let whole := if last = [] then lines else lines.dropLast
    let (tokens, rest, left) := closeBlocks here.wide blocks whole
    let top := rest.headD .outer
    if here.wide ≠ top.wide then .error .unmatchedDedent
    else if here.tight ≠ top.tight then .error .mixedTabs
    else .ok (tokens, left.flatten ++ last, rest)

/-! ### Tokens -/

/-- The tokens of leaves up to a line that fits in no block, if there is one, with `blocks` open, `trivia` read and, if
`fresh`, no leaf of the line read yet. -/
def Token.ofLeavesIn (blocks : List Indent) (fresh : Bool) (trivia : List Leaf) :
    List Leaf → List Token × Option LayoutFault
  | [] =>
    if fresh then
      let (tokens, _, left) := closeBlocks 0 blocks (trivialLines trivia)
      (tokens ++ [⟨left.flatten, .done⟩], none)
    else (⟨trivia, .leaf ⟨.endOfLine, ""⟩⟩ :: (closeBlocks 0 blocks []).1 ++ [⟨[], .done⟩], none)
  | l :: ls =>
    if l.kind.isTrivia then ofLeavesIn blocks fresh (trivia ++ [l]) ls
    else if l.kind = .endOfLine then
      if fresh then ofLeavesIn blocks true (trivia ++ [⟨.lineBreak, l.text⟩]) ls
      else
        let tail := ofLeavesIn blocks true [] ls
        (⟨trivia, .leaf l⟩ :: tail.1, tail.2)
    else if fresh then
      match openLine blocks trivia with
      | .ok (tokens, lead, blocks) =>
        let tail := ofLeavesIn blocks false [] ls
        (tokens ++ ⟨lead, .leaf l⟩ :: tail.1, tail.2)
      | .error f => ([], some f)
    else
      let tail := ofLeavesIn blocks false [] ls
      (⟨trivia, .leaf l⟩ :: tail.1, tail.2)

/-- The tokens of the leaves of a whole text. -/
def Token.ofLeaves? (ls : List Leaf) : Except LayoutFault (List Token) :=
  match Token.ofLeavesIn [] true [] ls with
  | (ts, none) => .ok ts
  | (_, some f) => .error f

end FluentShift.Source
