import FluentShift.Files.Disk

/-!
# FluentShift.Files.Glob - patterns for paths

In the parts of a pattern, a star stands for any characters, a question mark for one, and brackets for one of those
inside; two stars alone stand for any directories in between.  `Disk.glob` finds what a pattern leads to.
-/

namespace FluentShift.Files

/-! ### Names -/

/-- A piece of a pattern for names. -/
inductive Piece where
  | run
  | one
  | exact (c : Char)
  /-- One character from some ranges, or from none of them. -/
  | among (outside : Bool) (ranges : List (Char × Char))
  deriving DecidableEq, Repr, Inhabited

namespace Piece

/-- The ranges that the inside of brackets means: two characters with a hyphen between, or single ones. -/
def rangesOf : List Char → List (Char × Char)
  | a :: '-' :: b :: cs => (a, b) :: rangesOf cs
  | a :: cs => (a, a) :: rangesOf cs
  | [] => []

/-- The inside of brackets and what follows them; a closing bracket right at the start is inside. -/
def splitBrackets? (cs : List Char) : Option (List Char × List Char) :=
  let (mark, body) := if cs.take 1 = ['!'] then (['!'], cs.drop 1) else ([], cs)
  let inside := body.take 1 ++ (body.drop 1).takeWhile (· ≠ ']')
  match body.drop inside.length with
  | ']' :: rest => some (mark ++ inside, rest)
  | _ => none

/-- The piece that the inside of brackets means. -/
def ofBrackets : List Char → Piece
  | '!' :: cs => .among true (rangesOf cs)
  | cs => .among false (rangesOf cs)

/-- The pieces of a pattern, reading as many as there are characters. -/
def ofChars : Nat → List Char → List Piece
  | 0, _ | _, [] => []
  | n + 1, '*' :: cs => .run :: ofChars n cs
  | n + 1, '?' :: cs => .one :: ofChars n cs
  | n + 1, '[' :: cs =>
    match splitBrackets? cs with
    | some (inside, rest) => ofBrackets inside :: ofChars n rest
    | none => .exact '[' :: ofChars n cs
  | n + 1, c :: cs => .exact c :: ofChars n cs

/-- The pieces of a pattern for names. -/
def ofText (pattern : String) : List Piece := ofChars pattern.length pattern.toList

/-- Whether a piece stands for a character. -/
def accepts : Piece → Char → Bool
  | .run, _ | .one, _ => true
  | .exact c, x => x = c
  | .among outside ranges, x => (ranges.any fun r => r.1 ≤ x && x ≤ r.2) != outside

/-- Whether pieces stand for a name. -/
def fits : List Piece → List Char → Bool
  | [], name => name.isEmpty
  | .run :: ps, [] => fits ps []
  | .run :: ps, c :: cs => fits ps (c :: cs) || fits (.run :: ps) cs
  | _ :: _, [] => false
  | p :: ps, c :: cs => p.accepts c && fits ps cs
  termination_by ps name => (ps.length, name.length)

end Piece

/-! ### Paths -/

/-- A part of a pattern. -/
inductive GlobPart where
  /-- Any directories in between, or none. -/
  | anywhere
  | above
  | named (name : String)
  | like (pieces : List Piece)
  /-- The directory itself, after a slash at the end. -/
  | itself
  deriving DecidableEq, Repr, Inhabited

/-- A pattern that cannot be looked for. -/
def badPattern (cause : Mishap) (message : String) : Failure := .mishap cause message

/-- Whether a part of a pattern stands for more than one name. -/
def isWild (part : String) : Bool := part.toList.any fun c => c = '*' || c = '?' || c = '['

/-- Whether a text has two stars in a row. -/
def hasTwoStars : List Char → Bool
  | '*' :: '*' :: _ => true
  | _ :: cs => hasTwoStars cs
  | [] => false

/-- Reads a part of a pattern. -/
def GlobPart.ofText (part : String) : Except Failure GlobPart :=
  if part = "**" then .ok .anywhere
  else if part = ".." then .ok .above
  else if hasTwoStars part.toList then
    .error (badPattern .value "Invalid pattern: '**' can only be an entire path component")
  else if isWild part then .ok (.like (Piece.ofText part))
  else .ok (.named part)

/-- Reads a pattern that starts in a directory, or anywhere below it. -/
def globParts (pattern : String) (below : Bool) : Except Failure (List GlobPart) := do
  let path := FilePath.ofString pattern
  if pattern = "" && !below then throw (badPattern .value "Unacceptable pattern: ''")
  if path.isAbsolute then throw (badPattern .unsupported "Non-relative patterns are unsupported")
  let parts ← path.parts.mapM GlobPart.ofText
  let last := if pattern.toList.getLast? = some '/' then [GlobPart.itself] else []
  match (if below then [.anywhere] else []) ++ parts ++ last with
  | [] => throw (badPattern .index "tuple index out of range")
  | all => return all

namespace Disk

/-- What lies right in a directory: names and entries. -/
def childrenOf (d : Disk) (p : Place) : List (String × Entry) :=
  d.entries.filterMap fun e =>
    match e.1.getLast? with
    | some name => if e.1.dropLast = p then some (name, e.2) else none
    | none => none

/-- The parts that lead from a directory to those below it, itself first. -/
def directoriesBelow (d : Disk) (p : Place) : List (List String) :=
  [] :: d.entries.filterMap fun e =>
    if e.2 = .directory && p.isPrefixOf e.1 && p.length < e.1.length then some (e.1.drop p.length) else none

/-- The place of the directory that a path leads to. -/
def directoryPlace? (d : Disk) (path : FilePath) : Option Place :=
  match d.look path.text with
  | .ok (.found p .directory) => some p
  | _ => none

/-- Where one part of a pattern leads from a directory; only to directories if more parts follow. -/
def globStep (d : Disk) (more : Bool) (path : FilePath) : GlobPart → List FilePath
  | .itself => [path]
  | .above => [path.descend [".."]]
  | .anywhere =>
    match d.directoryPlace? path with
    | some p => (d.directoriesBelow p).map path.descend
    | none => []
  | .named name =>
    let child := path.descend [name]
    if (if more then d.hasDirectory child.text else d.has child.text) then [child] else []
  | .like pieces =>
    match d.directoryPlace? path with
    | some p =>
      ((d.childrenOf p).filter fun c => (!more || c.2 = .directory) && Piece.fits pieces c.1.toList).map fun c =>
        path.descend [c.1]
    | none => []

/-- Where the parts of a pattern lead from a directory. -/
def globFrom (d : Disk) : List GlobPart → FilePath → List FilePath
  | [], path => [path]
  | part :: parts, path => (d.globStep (!parts.isEmpty) path part).flatMap (d.globFrom parts)

/-- What a pattern leads to from a directory, or from anywhere below it; nothing if it is no directory. -/
def glob (d : Disk) (root : FilePath) (pattern : String) (anywhere : Bool) : Except Failure (List FilePath) := do
  let parts ← globParts pattern anywhere
  return if d.hasDirectory root.text then d.globFrom parts root else []

end Disk

end FluentShift.Files
