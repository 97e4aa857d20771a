import FluentShift.Imports.Edit
import FluentShift.Rewrite.Classification
import FluentShift.Source.File

/-!
# FluentShift.Rewrite.Outcome - what rewriting a file came to

Every call of the legacy function is a `CallSite`; rewriting turns it into a `Rewritten` call or a `Skipped` one.
-/

namespace FluentShift.Rewrite

open FluentShift.Source FluentShift.Types FluentShift.Imports

/-- A call of the legacy function: its node, the call itself and its place in the text. -/
structure CallSite where
  path : Path
  call : Tree
  position : Location
  deriving Inhabited, Repr

/-- A call that gets, or got, a fluent chain. -/
structure Rewritten where
  site : CallSite
  classification : Classification
  tags : List Tag
  deriving Inhabited, Repr

/-- A call that stays as it is, and why. -/
structure Skipped where
  site : CallSite
  reason : String
  deriving Inhabited, Repr

/-- A file after rewriting: its new text, the calls in the order of the text, the import edits that made a difference
and the fluent names that the new calls need. -/
structure Outcome where
  file : SourceFile
  rewritten : List Rewritten
  skipped : List Skipped
  edits : List Edit
  required : List String
  reconciled : Bool
  deriving Inhabited, Repr

namespace Outcome

/-- A file that was left alone. -/
def untouched (f : SourceFile) (skipped : List Skipped) : Outcome := ⟨f, [], skipped, [], [], false⟩

/-- Whether rewriting changed anything. -/
def changed (o : Outcome) : Bool := !o.rewritten.isEmpty || !o.edits.isEmpty

/-- The summary that goes into results. -/
def report (o : Outcome) : Value :=
  .record [
    ("rewritten", .ofNat o.rewritten.length),
    ("skipped", .list (o.skipped.map fun s =>
      .record [("position", .text s.site.position.describe), ("reason", .text s.reason)])),
    ("shapes", .ofTexts (o.rewritten.map fun r => r.classification.shape.label)),
    ("imports", .ofTexts (o.edits.map Edit.reportLine))]

end Outcome

end FluentShift.Rewrite
