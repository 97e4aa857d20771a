import FluentShift.Config.Settings
import FluentShift.Files.FilePath
import FluentShift.Result

/-!
# FluentShift.Engine.Context - what a run works on

A `Context` names the source, the target, the configuration and the run, and carries notes from one unit to the next.
It never changes; a note or a setting makes a new one.
-/

namespace FluentShift

namespace Config

/-- Where the new text of a source goes: into the target directory or beside the source, with the suffix added to the
name. -/
def targetPath (c : Config) (source : String) : Except Failure Files.FilePath :=
  let p := Files.FilePath.ofString source
  let name := Files.FilePath.ofString (p.stem ++ (c.value .targetSuffix).shown ++ p.suffix)
  if c.isOn .targetRoot then
    match c.value .targetRoot with
    | .text root => .ok ((Files.FilePath.ofString root).join name)
    | _ => .error (.mishap .wrongType "the target directory is no text")
  else .ok (p.parent.join name)

/-- The length that lines should keep to. -/
def lineLength (c : Config) : Value :=
  if c.isOn .lineLength then c.value .lineLength else .int 120

end Config

namespace Engine

/-- What a run works on. -/
structure Context where
  source : String
  target : String
  config : Config
  runId : String
  metadata : Metadata

namespace Context

/-- The context of a new run.  A missing or empty target follows from the configuration, and a missing or empty run
identifier is the fresh one. -/
def create (source : String) (target : Option String) (config : Config) (runId : Option String) (fresh : String) :
    Except Failure Context := do
  let target ← match target.filter (· ≠ "") with
    | some t => pure t
    | none => (config.targetPath source).map Files.FilePath.text
  return ⟨source, target, config, (runId.filter (· ≠ "")).getD fresh, []⟩

/-- The context with a note. -/
def note (c : Context) (key : String) (v : Value) : Context := { c with metadata := c.metadata.put key v }

/-- The context with other settings. -/
def reconfigure (c : Context) (entries : List (Value × Value)) : Except Failure Context :=
  (c.config.override entries).map fun config => { c with config := config }

/-- The context in one line. -/
def text (c : Context) : String :=
  "PipelineContext(source=" ++ c.source ++ ", target=" ++ c.target ++ ", run_id=" ++
    String.ofList (c.runId.toList.take 8) ++ "...)"

end Context

end Engine

end FluentShift
