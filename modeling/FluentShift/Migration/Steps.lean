import FluentShift.Files.Access
import FluentShift.Engine.Unit
import FluentShift.Migration.Tools
import FluentShift.Rewrite.Migrate

/-!
# FluentShift.Migration.Steps - the steps of a migration

From the text of a source to its new text in its place: parse, rewrite the calls, fix the imports, print, format, check
and write.  Each step takes what the one before it gives; anything else breaks it off.
-/

namespace FluentShift.Migration

open FluentShift.Files FluentShift.Engine FluentShift.Rewrite FluentShift.Source FluentShift.Types

/-! ### What steps work on -/

/-- What a step gets, as plain data; nothing but plain data counts. -/
def dataOf : Option Payload → Value
  | some (.plain v) => v
  | _ => .null

/-- The text that a step gets. -/
def takeText (input : Option Payload) : Work String :=
  match input.bind Payload.text? with
  | some s => pure s
  | none => throw (.mishap .attribute "the step works on text")

/-- The file that a step gets. -/
def takeSource (input : Option Payload) : Work SourceFile :=
  match input with
  | some (.source f) => pure f
  | _ => throw (.mishap .attribute "the step works on a parsed file")

/-- The outcome that a step gets. -/
def takeOutcome (input : Option Payload) : Work Outcome :=
  match input with
  | some (.rewriting o) => pure o
  | _ => throw (.mishap .attribute "the step works on the outcome of rewriting")

/-- A step that went well and has nothing to say. -/
def done (p : Payload) (metadata : Metadata) : Work Report := return .ofResult (.success p metadata)

/-- A step that gives back a text. -/
def doneText (s : String) (metadata : Metadata) : Work Report := done (.plain (.text s)) metadata

/-- A step that failed. -/
def failed (f : Failure) (metadata : Metadata) : Work Report := return .ofResult (.failure f metadata)

/-- The metadata that names the source. -/
def aboutSource (c : Context) : Metadata := [("source_file", .text c.source)]

/-- The key of the note that keeps the text of the source. -/
def originalKey : String := "original_code"

/-- Whether a step gets the text of the source, as far as the context knows it. -/
def isOriginal (c : Context) (input : Option Payload) : Bool :=
  let original := (c.metadata.get? originalKey).getD .null
  match input with
  | some (.plain v) => v.same original
  | none => original.same .null
  | some _ => false

/-! ### Rewriting -/

/-- What the rewriting of a context works with. -/
def setupOf (c : Config) (oracle : Oracle) : Except Failure Setup :=
  c.mapping.map fun m => ⟨m, c.vocabulary, oracle⟩

/-- Parses a source. -/
def parseStep (name : String) : Step where
  name := name
  type := "ParseSourceStep"
  execute c input := do
    let code ← takeText input
    match (readSource code c.source).value with
    | .ok f => done (.source f) []
    | .error e => failed e (aboutSource c)

/-- What there is to say about the calls of a file. -/
def callNotices (o : Outcome) : List Notice :=
  (o.rewritten.map fun r => .callRewritten (some r.site.position.describe) r.classification.shape.label
    (r.classification.style.map MessageStyle.label)) ++
  o.skipped.map fun s => .callSkipped (some s.site.position.describe) s.reason

/-- Rewrites the calls of a file. -/
def rewriteStep (oracle : Oracle) (name : String) : Step where
  name := name
  type := "RewriteCallsStep"
  execute c input := do
    let setup ← Work.ofExcept (setupOf c.config oracle)
    let o ← Work.ofRun (rewriteCalls setup (← takeSource input))
    return ⟨.success (.rewriting o)
      [("calls_rewritten", .ofNat o.rewritten.length), ("calls_skipped", .ofNat o.skipped.length)], callNotices o⟩

/-- Fixes the imports of a file. -/
def reconcileStep (name : String) : Step where
  name := name
  type := "ReconcileImportsStep"
  execute c input := do
    let m ← Work.ofExcept c.config.mapping
    let o ← takeOutcome input
    try
      let o ← Work.ofRun (reconcileImports m o)
      done (.rewriting o) [("import_edits", .ofTexts (o.edits.map Imports.Edit.reportLine))]
    catch f =>
      match f with
      | .reconciliation .. => pure ⟨.failure f (aboutSource c), [.fault f f.typeName name]⟩
      | _ => throw f

/-- Prints a file. -/
def generateStep (name : String) : Step where
  name := name
  type := "GenerateCodeStep"
  execute _ input := do
    let o ← takeOutcome input
    doneText o.file.code [("migration_report", o.report), ("changed", .bool o.changed)]

/-! ### Formatting -/

/-- The number of lines of a text, as a value. -/
def linesOf (code : String) : Value := .ofNat (Text.countLines code.toList)

/-- Formats a text if that is asked for.  A text that cannot be formatted comes out as it is. -/
def formatStep (formatter : Formatter) (name : String) : Step where
  name := name
  type := "FormatCodeStep"
  execute c input := do
    if !c.config.isOn .format then
      return .ofResult (.success? input [("formatted", .bool false)])
    let code ← takeText input
    let layout ← Work.ofExcept (layoutOf c.config)
    match formatter.run (← Work.disk) layout code with
    | .formatted code' =>
      doneText code'
        [("formatted", .bool true), ("original_lines", linesOf code), ("formatted_lines", linesOf code')]
    | .declined message =>
      return .ofResult
        (.warning (.plain (.text code)) ["Code formatting failed: " ++ message] [("formatting_failed", .bool true)])
    | .raised f => throw f

/-- Checks that a text can be parsed. -/
def checkStep (name : String) : Step where
  name := name
  type := "ValidateGeneratedCodeStep"
  execute c input := do
    let code ← takeText input
    if parses code then doneText code []
    else failed (.badOutput ("Generated code for " ++ c.source ++ " does not parse")) (aboutSource c)

/-! ### Writing -/

/-- How often a refused operation is tried again. -/
def retriesOf (c : Config) : Int := ((c.value .retries).int?).getD 0

/-- Whether the target of a context is its source. -/
def isInPlace (c : Context) : Bool :=
  Place.ofPath (FilePath.ofString c.target) = Place.ofPath (FilePath.ofString c.source)

/-- Whether a failure to write belongs into a result; others break the step off. -/
def isRefusal : Failure → Bool
  | .system .. | .path .. => true
  | _ => false

/-- Writes the target of a context; what is no text leaves it empty. -/
def writeTarget (c : Context) (input : Option Payload) : Work Unit := do
  match input.bind Payload.text? with
  | some code => writeSource c.target code (retriesOf c.config)
  | none =>
    writeSource c.target "" (retriesOf c.config)
    -- the file has been opened by now, so it is there and empty
    throw (.mishap .wrongType "only text can be written")

/-- Writes a text to its target, unless nothing changed or nothing is to be written. -/
def writeStep (name : String) : Step where
  name := name
  type := "WriteOutputStep"
  execute c input := do
    if c.config.isOn .dryRun then
      doneText c.target
        [("dry_run", .bool true), ("target_file", .text c.target), ("generated_code", dataOf input)]
    else if isInPlace c && isOriginal c input then doneText c.target [("written", .bool false)]
    else
      try
        writeTarget c input
        doneText c.target [("written", .bool true)]
      catch f =>
        if isRefusal f then failed f [("target_file", .text c.target)] else throw f

end FluentShift.Migration
