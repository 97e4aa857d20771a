import FluentShift.Failure
import FluentShift.Source.Parse

/-!
# FluentShift.Source.Fault - why a text is not source code

`strictModule` reads a text as the interpreter of the language would: without a byte order mark, and without the newer
statements that the grammar knows.  A text that it refuses has a `SourceFault`, by what is wrong first: a character or a
line that fits in no block, a block without the line that opens it or such a line without a block, or anything else.
-/

namespace FluentShift.Source

/-! ### Completing a text -/

/-- A token that is a mark. -/
def markToken (text : String) : Token := ⟨[], .leaf ⟨.mark, text⟩⟩

/-- A token that is a name. -/
def nameToken (text : String) : Token := ⟨[], .leaf ⟨.name, text⟩⟩

/-- A block that does nothing. -/
def idleBlock : List Token := [⟨[], .indent⟩, markToken "pass", ⟨[], .leaf ⟨.endOfLine, "\n"⟩⟩, ⟨[], .dedent⟩]

/-- The colon at the end of a line and a block that does nothing. -/
def idleSuite : List Token := [markToken ":", ⟨[], .leaf ⟨.endOfLine, "\n"⟩⟩] ++ idleBlock

/-- A block that does nothing after the line that opens it. -/
def blockAfter (opener : Option String) : List Token :=
  if opener = some "match" then
    [⟨[], .indent⟩, nameToken "case", nameToken "_"] ++ idleSuite ++ [⟨[], .dedent⟩]
  else idleBlock

/-- What is at the end of a block, so that it is complete: after the word `try` there has to be more. -/
def afterBlock (opener : Option String) : List Token :=
  if opener = some "try" then markToken "finally" :: idleSuite else []

/-- Whether tokens, the last one first, end with the line that opens a block. -/
def opensBlock : List Token → Bool
  | ⟨_, .leaf e⟩ :: ⟨_, .leaf c⟩ :: _ => e.kind = .endOfLine && c.kind = .mark && c.text = ":"
  | _ => false

/-- The leaf of a token inside a line. -/
def lineLeaf? (t : Token) : Option Leaf :=
  match t.body with
  | .leaf l => if l.kind = .endOfLine then none else some l
  | _ => none

/-- The first word of the last line of tokens, the last one first. -/
def lineOpener? (before : List Token) : Option String :=
  ((before.drop 1).takeWhile fun t => (lineLeaf? t).isSome).getLast?.bind fun t => (lineLeaf? t).map (·.text)

/-- Lines, the last token first, completed to a text; `blocks` are the first words of the lines that opened the blocks
around the last line. -/
def completed (before : List Token) (blocks : List (Option String)) : List Token :=
  let opener := lineOpener? before
  let started :=
    if opensBlock before then blockAfter opener ++ afterBlock opener
    else if opener = some "@" then [markToken "class", nameToken "_"] ++ idleSuite
    else []
  before.reverse ++ started ++ (blocks.flatMap fun opener => ⟨[], .dedent⟩ :: afterBlock opener) ++ [⟨[], .done⟩]

/-! ### The first fault -/

/-- The tokens up to the first block without a line that opens it, or the first such line without a block, completed to a
text, and whether there is one; `before` and `blocks` are what came before. -/
def upToBlockFault (before : List Token) (blocks : List (Option String)) : List Token → List Token × Bool
  | [] => (completed before blocks, false)
  | t :: ts =>
    match t.body, opensBlock before with
    | .indent, true => upToBlockFault (t :: before) (lineOpener? before :: blocks) ts
    | .indent, false | _, true => (completed before blocks, true)
    | .dedent, false => upToBlockFault (t :: before) (blocks.drop 1) ts
    | _, false => upToBlockFault (t :: before) blocks ts

/-- What is wrong first with tokens after which there is a fault. -/
def firstFault (ts : List Token) (fault : SourceFault) : SourceFault :=
  let (whole, inBlocks) := upToBlockFault [] [] ts
  if (moduleOfTokens? whole).isNone then .malformed else if inBlocks then .indentation else fault

/-- The fault of a line that fits in no block. -/
def LayoutFault.sourceFault : LayoutFault → SourceFault
  | .unmatchedDedent => .indentation
  | .mixedTabs => .tabs

/-- Whether a token ends a text that is not complete. -/
def isEnd (t : Token) : Bool :=
  match t.body with
  | .leaf l => l.kind = .endOfLine && l.text = ""
  | .dedent | .done => true
  | .indent => false

/-- Whether a tree has a statement that only newer interpreters know. -/
def isNewer (t : Tree) : Bool :=
  [Kind.typeAlias, .typeParams].any fun k => !(t.nodesOf k).isEmpty

/-- Reads a text as the interpreter would. -/
def strictModule (text : String) : Except SourceFault Tree :=
  let (leaves, lexFault) := lexemesIn [] text.toList
  match Token.ofLeavesIn [] true [] leaves, lexFault with
  | (ts, some f), _ => .error (firstFault ts f.sourceFault)
  | (ts, none), some _ => .error (firstFault (ts.reverse.dropWhile isEnd).reverse .malformed)
  | (ts, none), none =>
    match moduleOfTokens? ts with
    | some t => if isNewer t then .error .malformed else .ok t
    | none => .error (firstFault ts .malformed)

end FluentShift.Source
