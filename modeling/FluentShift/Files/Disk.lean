import FluentShift.Failure
import FluentShift.Files.FilePath
import FluentShift.Text.Quoted

/-!
# FluentShift.Files.Disk - files and directories

A `Disk` is what lies below the working directory.  A place on it is the list of the names that lead there; a list that
starts with double dots or a slash leads outside.  Paths are walked part by part, as the system does: every part but the
last has to be a directory.
-/

namespace FluentShift.Files

/-- What lies at a place. -/
inductive Entry where
  | file (content : ByteArray)
  | directory
  deriving Inhabited

instance : DecidableEq Entry
  | .file a, .file b => @decidable_of_iff _ (a = b) ⟨congrArg Entry.file, Entry.file.inj⟩ (ByteArray.decEq a b)
  | .directory, .directory => .isTrue rfl
  | .file _, .directory => .isFalse nofun
  | .directory, .file _ => .isFalse nofun

/-- The names that lead to a place. -/
abbrev Place := List String

/-- The files and directories, oldest first. -/
structure Disk where
  entries : List (Place × Entry)
  deriving Inhabited

namespace Place

/-- Whether a place is where paths start: the working directory, one above it, or the root. -/
def isAnchor (p : Place) : Bool := p.all fun s => s = "/" || s = ".."

/-- The place above. -/
def up (p : Place) : Place :=
  if p = ["/"] then p else if isAnchor p then p ++ [".."] else p.dropLast

/-- The place that a path means by its words alone. -/
def ofPath (p : FilePath) : Place :=
  p.parts.foldl (fun at_ c => if c = ".." then up at_ else at_ ++ [c]) (if p.isAbsolute then ["/"] else [])

/-- The place that the text of a path means. -/
def named (path : String) : Place := ofPath (.ofString path)

end Place

namespace Disk

/-- A disk without anything on it. -/
def empty : Disk := ⟨[]⟩

/-- What lies at a place. -/
def at? (d : Disk) (p : Place) : Option Entry :=
  if p.isAnchor then some .directory else d.entries.lookup p

/-- The disk with something put at a place. -/
def put (d : Disk) (p : Place) (e : Entry) : Disk :=
  if (d.entries.lookup p).isSome then ⟨d.entries.map fun x => if x.1 = p then (p, e) else x⟩
  else ⟨d.entries ++ [(p, e)]⟩

/-! ### Walking a path -/

/-- Where a path leads: to something, or to a place that is still free. -/
inductive Spot where
  | found (place : Place) (entry : Entry)
  | free (place : Place)
  deriving Inhabited

/-- The most bytes that a name may have. -/
def longestName : Nat := 255

/-- The most bytes that a path may have. -/
def longestPath : Nat := 4095

/-- Walks along the parts of a path. -/
def walk (d : Disk) : Spot → List String → Except SystemFault Spot
  | s, [] => .ok s
  | .free _, _ :: _ => .error .missing
  | .found _ (.file _), _ :: _ => .error .notDirectory
  | .found p .directory, c :: cs =>
    -- empty parts and single dots lead nowhere
    if !FilePath.isPart c then walk d (.found p .directory) cs
    else if c = ".." then walk d (.found p.up .directory) cs
    else if longestName < c.utf8ByteSize then .error .tooLong
    else
      match d.at? (p ++ [c]) with
      | some e => walk d (.found (p ++ [c]) e) cs
      | none => walk d (.free (p ++ [c])) cs

/-- Where a path leads. -/
def look (d : Disk) (path : String) : Except SystemFault Spot :=
  if path = "" then .error .missing
  else if longestPath < path.utf8ByteSize then .error .tooLong
  else walk d (.found (if path.toList.head? = some '/' then ["/"] else []) .directory) (Text.split '/' path)

/-- What a path leads to. -/
def entry? (d : Disk) (path : String) : Option Entry :=
  match d.look path with
  | .ok (.found _ e) => some e
  | _ => none

/-- Whether a path leads to something. -/
def has (d : Disk) (path : String) : Bool := (d.entry? path).isSome

/-- Whether a path leads to a directory. -/
def hasDirectory (d : Disk) (path : String) : Bool :=
  match d.entry? path with
  | some .directory => true
  | _ => false

/-- The content of the file that a path leads to. -/
def content? (d : Disk) (path : String) : Option ByteArray :=
  match d.entry? path with
  | some (.file b) => some b
  | _ => none

/-- Whether a path leads to a file. -/
def hasFile (d : Disk) (path : String) : Bool := (d.content? path).isSome

/-! ### Refusals -/

/-- The words of the system for a fault. -/
def faultText : SystemFault → String
  | .missing => "[Errno 2] No such file or directory: "
  | .isDirectory => "[Errno 21] Is a directory: "
  | .notDirectory => "[Errno 20] Not a directory: "
  | .exists_ => "[Errno 17] File exists: "
  | .permission => "[Errno 13] Permission denied: "
  | .tooLong => "[Errno 36] File name too long: "
  | .other => "[Errno 5] Input/output error: "

/-- The failure of an operation on a path. -/
def refusal (fault : SystemFault) (path : String) : Failure :=
  .system fault (faultText fault ++ Text.quoted path)

/-- What a path leads to, if anything; a path that is too long is refused. -/
def find (d : Disk) (path : String) : Except Failure (Option Entry) :=
  match d.look path with
  | .ok (.found _ e) => .ok (some e)
  | .error .tooLong => .error (refusal .tooLong path)
  | _ => .ok none

/-! ### Operations -/

/-- The content of a file. -/
def read (d : Disk) (path : String) : Except Failure ByteArray :=
  match d.look path with
  | .ok (.found _ (.file b)) => .ok b
  | .ok (.found _ .directory) => .error (refusal .isDirectory path)
  | .ok (.free _) => .error (refusal .missing path)
  | .error fault => .error (refusal fault path)

/-- A path without the slashes it ends with. -/
def withoutEndSlashes (path : String) : String := String.ofList (path.toList.reverse.dropWhile (· = '/')).reverse

/-- Writes a file whose directory exists; a path with a slash at its end means a directory. -/
def write (d : Disk) (path : String) (content : ByteArray) : Except Failure Disk :=
  match d.look path with
  | .ok (.found p (.file _)) => .ok (d.put p (.file content))
  | .ok (.found _ .directory) => .error (refusal .isDirectory path)
  | .ok (.free p) => .ok (d.put p (.file content))
  | .error fault =>
    -- a path that only its last slash makes wrong means a directory
    match d.look (withoutEndSlashes path) with
    | .ok _ => .error (refusal .isDirectory path)
    | .error _ => .error (refusal fault path)

/-- Makes one directory. -/
def makeDirectory (d : Disk) (path : String) : Except Failure Disk :=
  match d.look path with
  | .ok (.found _ _) => .error (refusal .exists_ path)
  | .ok (.free p) => .ok (d.put p .directory)
  | .error fault => .error (refusal fault path)

end Disk

end FluentShift.Files
