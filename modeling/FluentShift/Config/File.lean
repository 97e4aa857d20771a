import FluentShift.Config.Validation
import FluentShift.Files.Access
import FluentShift.Result
import FluentShift.Yaml.Value

/-!
# FluentShift.Config.File - configuration files

A configuration file is a document with a mapping.  What is wrong with the file comes back in a result.  Some faults stop
the loading, though: a path that no file can have, bytes that are no text, parts of the document that mean nothing, and
directories that the system does not look for.
-/

namespace FluentShift.Config

/-- What a configuration file says, or how loading it ends. -/
def fileEntries (d : Files.Disk) (path : String) : Except Failure (Except Failure (List (Value × Value))) :=
  let unreadable (why : String) : Failure := .configuration ("Error loading configuration: " ++ why) none []
  if path.toList.contains '\x00' then .error (.mishap .value "embedded null byte")
  else match Files.readText d path with
  | .error f =>
    if f.isMissing then .ok (.error (.system .missing ("Configuration file not found: " ++ path)))
    else if f.isSystem then .ok (.error (unreadable f.message))
    else .error f
  | .ok text =>
    match Yaml.read text with
    | .ok (.mapping es) => .ok (.ok es)
    | .ok _ => .ok (.error (.configuration "Configuration file must contain a mapping" none []))
    | .error .malformed => .ok (.error (unreadable "the text is no document"))
    | .error (.meaningless f) => .error f

/-- Loads a configuration file. -/
def loadFile (d : Files.Disk) (path : String) : Except Failure (Result Config) := do
  let about : Metadata := [("config_file", .text path)]
  match ← fileEntries d path with
  | .error f => return .failure f about
  | .ok entries =>
    match load d entries with
    | .ok c => return .success c about
    | .error f => if f.isConfiguration then return .failure f about else throw f

end FluentShift.Config
