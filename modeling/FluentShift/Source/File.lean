import FluentShift.Source.Body
import FluentShift.Source.Parse

/-!
# FluentShift.Source.File - a whole file

A `SourceFile` is the tree of a file with what its printing needs to know.

* A last line break is only kept as such when it is a line feed that no backslash hides; any other one is dropped.
* Lines after the last statement that come before an indented one are dropped.
-/

namespace FluentShift.Source

/-! ### Line breaks -/

/-- The first line break of a text; a line feed if it has none. -/
def firstLineBreak (text : String) : String :=
  match text.toList.dropWhile (fun c => c ≠ '\n' && c ≠ '\r') with
  | '\r' :: '\n' :: _ => "\r\n"
  | '\r' :: _ => "\r"
  | _ => "\n"

/-- Whether the last line of a text ends with a line feed that no backslash hides. -/
def endsLine (text : String) : Bool :=
  match text.toList.reverse with
  | '\n' :: '\\' :: _ | '\n' :: '\r' :: '\\' :: _ => false
  | '\n' :: _ => true
  | _ => false

/-- A text without its last line break. -/
def dropLineBreak (text : String) : String :=
  match text.toList.reverse with
  | '\n' :: '\r' :: cs | '\n' :: cs | '\r' :: cs => String.ofList cs.reverse
  | _ => text

/-- A file: its tree, the line break that new lines get, and whether its last line ends. -/
structure SourceFile where
  tree : Tree
  lineBreak : String
  ended : Bool
  deriving Inhabited, Repr

/-! ### The end of a file -/

/-- Trivia cut after every line break. -/
def lineUp : List Tree → List (List Tree)
  | [] => []
  | t :: ts =>
    if t.isLineBreak then [t] :: lineUp ts
    else match lineUp ts with
      | [] => [[t]]
      | line :: rest => (t :: line) :: rest

/-- How many lines of trivia come before the last one that starts with a blank, up to a comment that starts its line. -/
def beforeLastIndented (lines : List (List Tree)) : Nat :=
  let startsWith (p : Tree → Bool) (line : List Tree) : Bool := (line.head?.map p).getD false
  let isBlank (t : Tree) : Bool := !t.isComment && !t.isLineBreak
  let upToComment := lines.takeWhile (!startsWith Tree.isComment ·)
  let indented := upToComment.reverse.dropWhile (!startsWith isBlank ·)
  indented.length - 1

/-- A module without the lines after its last statement that come before an indented line. -/
def trimEnd (t : Tree) : Tree :=
  let (is, tail) := items t.children
  if is.isEmpty then t
  else
    let lines := lineUp tail
    .node .module (Item.flatten is ++ (lines.drop (beforeLastIndented lines)).flatten)

namespace SourceFile

/-- Reads a file. -/
def parse? (text : String) : Option SourceFile := do
  let ended := endsLine text
  let tree ← parseModule? (if ended then text else dropLineBreak text)
  return ⟨trimEnd tree, firstLineBreak text, ended⟩

/-- The text of a file. -/
def code (f : SourceFile) : String := f.tree.text

/-- The tree with its last line ended. -/
def closedTree (f : SourceFile) : Tree :=
  if f.ended then f.tree
  else match f.tree.leaves.getLast? with
    | none => f.tree
    | some l =>
      if l.kind = .endOfLine && l.text = "" then f.tree.mapLast fun l => { l with text := f.lineBreak }
      else match f.tree with
        | .node k ts => .node k (ts ++ [.leaf ⟨.lineBreak, f.lineBreak⟩])
        | .leaf l => .leaf l

/-- The file with a new tree whose last line is ended: the last line of the file stays as it was, and a file with
nothing left is one line break. -/
def withClosedTree (f : SourceFile) (t : Tree) : SourceFile :=
  let tree :=
    if f.ended then
      match t with
      | .node k ts => if t.text = "" then .node k (ts ++ [.leaf ⟨.lineBreak, f.lineBreak⟩]) else t
      | .leaf l => .leaf l
    else t.mapLast fun l => if l.kind = .endOfLine || l.kind = .lineBreak then { l with text := "" } else l
  { f with tree := tree }

end SourceFile

end FluentShift.Source
