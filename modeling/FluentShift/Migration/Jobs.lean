import FluentShift.Migration.Steps

/-!
# FluentShift.Migration.Jobs - the jobs of a migration

The collector makes the new text of a source, the formatter formats and checks it, and the output job writes it.  The
original is copied before it is changed; without a copy nothing is written.
-/

namespace FluentShift.Migration

open FluentShift.Files FluentShift.Engine FluentShift.Types

/-! ### Collecting -/

/-- The steps from the text of a source to its new text. -/
def rewriteTask (oracle : Oracle) : Task :=
  ⟨"rewrite", [parseStep "parse_source", rewriteStep oracle "rewrite_calls", reconcileStep "reconcile_imports",
    generateStep "generate_code"]⟩

/-- The job around those steps. -/
def collectorJob (oracle : Oracle) : Job := ⟨"collector", "CollectorJob", [rewriteTask oracle]⟩

/-- The line for a job that failed. -/
def logFailure {α : Type} (what path : String) (r : Result α) : Act Unit :=
  if r.isError then
    Act.log .error (what ++ " job failed for " ++ path ++ ": " ++ (r.error.map Failure.message).getD "None")
  else pure ()

/-- Makes the new text of a source; only text can be a source. -/
def collect (oracle : Oracle) : Stage where
  name := "collector"
  run c input := do
    match input.bind Payload.text? with
    | none => return .failure (.mishap .wrongType ("Collector job expects source text for " ++ c.source)) []
    | some _ =>
      let r ← (collectorJob oracle).run c input
      logFailure "Collection" c.source r
      return r

/-! ### Formatting -/

/-- The steps that format and check a text. -/
def formattingTask (formatter : Formatter) : Task :=
  ⟨"formatting", [formatStep formatter "format_code", checkStep "validate_code"]⟩

/-- The job around those steps. -/
def formatterJob (formatter : Formatter) : Job := ⟨"formatter", "FormatterJob", [formattingTask formatter]⟩

/-- Formats and checks a text. -/
def format (formatter : Formatter) : Stage where
  name := "formatter"
  run c input := do
    let r ← (formatterJob formatter).run c input
    logFailure "Formatting" c.source r
    return r

/-! ### Output -/

/-- The step that writes a text. -/
def outputTask : Task := ⟨"output", [writeStep "write_output"]⟩

/-- The job around that step. -/
def outputJob : Job := ⟨"output", "OutputJob", [outputTask]⟩

/-- Whether the source of a context is copied before its target is written. -/
def needsBackup (c : Context) (input : Option Payload) : Bool :=
  c.config.isOn .keepBackups && !c.config.isOn .dryRun && !isOriginal c input

/-- Copies the source of a context if that is needed. -/
def backUp (c : Context) (input : Option Payload) : Work (Option FilePath) :=
  if needsBackup c input then keepBackup c.source (c.config.textOf? .backupRoot) (retriesOf c.config) else pure none

/-- Writes a text to its target after copying the source. -/
def output : Stage where
  name := "output"
  run c input := do
    match ← Act.work (backUp c input) with
    | .error f =>
      Act.log .error ("Failed to create backup for " ++ c.source ++ ": " ++ f.message)
      return .failure f (aboutSource c)
    | .ok backup =>
      let r ← outputJob.run c input
      logFailure "Output" c.target r
      if !r.isError && c.config.isOn .dryRun then
        Act.log .info ("Dry-run: would write output to " ++ c.target)
      return match backup with
        | some b => if r.isOk then r.withMetadata "backup_file" (.text b.text) else r
        | none => r

/-! ### The pipeline -/

/-- From the text of a source to its new text in its place. -/
def pipeline (tools : Tools) : Pipeline := ⟨"migration", [collect tools.oracle, format tools.formatter, output]⟩

end FluentShift.Migration
