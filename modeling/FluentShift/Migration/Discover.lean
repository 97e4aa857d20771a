import FluentShift.Config.Settings
import FluentShift.Files.Glob
import FluentShift.Migration.Candidate

/-!
# FluentShift.Migration.Discover - finding files to migrate

Below a directory, the files that one of the configured patterns finds are looked at, and those without work are left
out.  A file that cannot be read or parsed stays in: the migration itself will say what is wrong with it.
-/

namespace FluentShift.Migration

open FluentShift.Files

/-- The files that patterns find, each once, in the order of their parts. -/
def matchingFiles (d : Disk) (root : FilePath) (patterns : List String) (anywhere : Bool) :
    Except Failure (List FilePath) := do
  let found ← patterns.mapM fun p => d.glob root p anywhere
  let files := found.flatten.filter fun p => d.hasFile p.text
  return files.eraseDups.mergeSort fun p q => Text.listLe p.parts q.parts

/-- Whether a file is kept: it is a candidate, or cannot be looked at. -/
def isKept (m : Mapping) (d : Disk) (p : FilePath) : Bool :=
  match isCandidateFile m d p.text with
  | .ok b => b
  | .error _ => true

/-- The files below a directory that may have work. -/
def discover (d : Disk) (c : Config) (directory : String) : Except Failure (List String) := do
  let files ← matchingFiles d (.ofString directory) (c.value .filePatterns).texts (c.isOn .recurse)
  if files.isEmpty then return []
  let m ← c.mapping
  return (files.filter (isKept m d)).map FilePath.text

end FluentShift.Migration
