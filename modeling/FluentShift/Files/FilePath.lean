import FluentShift.Text.Split

/-!
# FluentShift.Files.FilePath - names of files

A `FilePath` is a path cut at its slashes.  Empty parts and single dots vanish; double dots stay, because what they mean
depends on the disk.  `ofString` and `toString` convert; `name`, `stem`, `suffix` and `parent` take a path apart.
-/

namespace FluentShift.Files

/-- A path: what it starts from and its parts. -/
structure FilePath where
  /-- Empty for a relative path, one slash, or exactly two. -/
  start : String
  parts : List String
  deriving DecidableEq, Repr, Inhabited

namespace FilePath

/-! ### Text -/

/-- What a path starts from: two slashes count as such only when no third one follows. -/
def startOf (text : String) : String :=
  match text.toList with
  | '/' :: '/' :: '/' :: _ => "/"
  | '/' :: '/' :: _ => "//"
  | '/' :: _ => "/"
  | _ => ""

/-- Whether a part says anything. -/
def isPart (s : String) : Bool := s ≠ "" && s ≠ "."

/-- Reads a path. -/
def ofString (text : String) : FilePath :=
  ⟨startOf text, (Text.split '/' text).filter isPart⟩

/-- Writes a path; the empty one is a dot. -/
def text (p : FilePath) : String :=
  if p.start = "" && p.parts.isEmpty then "." else p.start ++ String.intercalate "/" p.parts

/-- Whether a path does not depend on where one stands. -/
def isAbsolute (p : FilePath) : Bool := p.start ≠ ""

/-! ### Parts -/

/-- The last part; empty when there is none. -/
def name (p : FilePath) : String := p.parts.getLast?.getD ""

/-- A text cut at its last dot. -/
def splitAtLastDot : List Char → Option (List Char × List Char)
  | [] => none
  | c :: cs =>
    match splitAtLastDot cs with
    | some (before, after) => some (c :: before, after)
    | none => if c = '.' then some ([], cs) else none

/-- A name cut before its suffix: at its last dot, unless that is its first or its last character. -/
def splitName (name : List Char) : List Char × List Char :=
  match splitAtLastDot name with
  | some (before, after) => if before.isEmpty || after.isEmpty then (name, []) else (before, '.' :: after)
  | none => (name, [])

/-- The name without its suffix. -/
def stem (p : FilePath) : String := String.ofList (splitName p.name.toList).1

/-- The suffix of the name, with its dot. -/
def suffix (p : FilePath) : String := String.ofList (splitName p.name.toList).2

/-- The path without its last part. -/
def parent (p : FilePath) : FilePath := { p with parts := p.parts.dropLast }

/-- The second path as seen from the first: an absolute one stands for itself. -/
def join (p q : FilePath) : FilePath :=
  if q.isAbsolute then q else { p with parts := p.parts ++ q.parts }

/-- The path with more parts. -/
def descend (p : FilePath) (parts : List String) : FilePath := { p with parts := p.parts ++ parts }

/-- The path with another last part. -/
def withName (p : FilePath) (name : String) : FilePath := { p with parts := p.parts.dropLast ++ [name] }

/-! ### Laws -/

theorem eq_of_splitAtLastDot {s before after : List Char} (h : splitAtLastDot s = some (before, after)) :
    s = before ++ '.' :: after := by
  induction s generalizing before with
  | nil => simp [splitAtLastDot] at h
  | cons c cs ih =>
    simp only [splitAtLastDot] at h
    split at h
    · rename_i b a hcs
      simp only [Option.some.injEq, Prod.mk.injEq] at h
      obtain ⟨rfl, rfl⟩ := h
      simp [ih hcs]
    · split at h
      · simp only [Option.some.injEq, Prod.mk.injEq] at h
        obtain ⟨rfl, rfl⟩ := h
        simp_all
      · simp at h

/-- The stem and the suffix make up the name. -/
theorem splitName_append (name : List Char) : (splitName name).1 ++ (splitName name).2 = name := by
  unfold splitName
  split
  · rename_i before after h
    split
    · simp
    · exact (eq_of_splitAtLastDot h).symm
  · simp

end FilePath

end FluentShift.Files
