import FluentShift.Files.Desk
import FluentShift.Text.Blank
import FluentShift.Text.Utf8

/-!
# FluentShift.Files.Access - reading, writing and keeping copies

Sources are read and written as text.  Before a source is overwritten, `keepBackup` copies it, unless there is a copy
already.
-/

namespace FluentShift.Files

/-! ### Checking -/

/-- The path of a source file that is there. -/
def validateSource (d : Disk) (path : String) : Except Failure FilePath := do
  let p := FilePath.ofString path
  if Text.isBlankText path then throw (.path "Source path cannot be empty" path "empty_path")
  match ← d.find p.text with
  | none => throw (.path ("Source file not found: " ++ path) path "missing")
  | some .directory => throw (.path ("Source path is not a file: " ++ path) path "not_a_file")
  | some (.file _) => return p

/-- Makes the directory that a path lies in. -/
def ensureParent (a : Answers) (d : Disk) (path : String) (mayExist : Bool) : Except Failure Unit × Disk :=
  let parent := (FilePath.ofString path).parent
  match d.makeDirectories a parent mayExist with
  | (d', none) => (.ok (), d')
  | (d', some f) => (.error (.path ("Cannot create parent directory: " ++ f.message) parent.text "parent_creation"), d')

/-! ### Text -/

/-- The text that bytes read from a file stand for. -/
def textOf (bytes : ByteArray) : Except Failure String :=
  match Text.Utf8.decode bytes with
  | .ok s => .ok s
  | .error m => .error (.undecodable m)

/-- Reads a text file. -/
def readText (d : Disk) (path : String) : Except Failure String := d.read path >>= textOf

/-- Reads a source. -/
def readSource (path : String) (retries : Int) : Work String :=
  Work.retrying "read" path retries fun a d => (d.readUnder a path >>= textOf, d)

/-- Writes a file, and makes the directory for it. -/
def writeFile (a : Answers) (d : Disk) (path : String) (content : ByteArray) : Except Failure Unit × Disk :=
  match ensureParent a d path true with
  | (.error f, d') => (.error f, d')
  | (.ok _, d') =>
    match d'.writeUnder a path content with
    | .ok d'' => (.ok (), d'')
    | .error f => (.error f, d')

/-- Writes a source. -/
def writeSource (path content : String) (retries : Int) : Work Unit :=
  Work.retrying "write" path retries fun a d => writeFile a d path content.toUTF8

/-! ### Copies -/

/-- Where the copy of a source goes: beside it, or into a directory for copies if one is named. -/
def backupPath (source : String) (root : Option String) : Except Failure FilePath :=
  let p := FilePath.ofString source
  let name := p.name ++ ".backup"
  match root.filter (· ≠ "") with
  | some r => .ok ((FilePath.ofString r).join (.ofString name))
  | none =>
    if p.name = "" then .error (.mishap .value ("PosixPath(" ++ Text.quoted p.text ++ ") has an empty name"))
    else .ok (p.withName name)

/-- Copies a file, and makes the directory for the copy. -/
def copyFile (a : Answers) (d : Disk) (source : String) (target : FilePath) : Except Failure Unit × Disk :=
  match ensureParent a d target.text true with
  | (.error f, d') => (.error f, d')
  | (.ok _, d') =>
    match d'.readUnder a source with
    | .error f => (.error f, d')
    | .ok bytes =>
      match d'.writeUnder a target.text bytes with
      | .ok d'' => (.ok (), d'')
      | .error f => (.error f, d')

/-- Copies a source to where its copy goes; nothing is done when something lies there. -/
def keepBackup (source : String) (root : Option String) (retries : Int) : Work (Option FilePath) := do
  let target ← Work.ofExcept (backupPath source root)
  -- whatever lies there counts as the copy
  if (← Work.ofExcept ((← Work.disk).find target.text)).isSome then
    Work.log .info ("Backup already exists, skipping: " ++ target.text)
    return none
  Work.retrying "backup" source retries fun a d => copyFile a d source target
  Work.log .info ("Created backup: " ++ target.text)
  return some target

end FluentShift.Files
