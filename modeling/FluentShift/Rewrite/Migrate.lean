import FluentShift.Imports.Reconcile
import FluentShift.Rewrite.Plan
import FluentShift.Rewrite.Splice

/-!
# FluentShift.Rewrite.Migrate - rewriting a whole file

`rewriteCalls` plans and splices, `reconcileImports` then fixes the imports of a file that has new calls, and
`migrateSource` does both for a text.  A text without a change is given back as it is.
-/

namespace FluentShift.Rewrite

open FluentShift.Source FluentShift.Scope FluentShift.Types FluentShift.Imports

/-- Rewrites the calls of the legacy function; imports stay as they are. -/
def rewriteCalls (s : Setup) (f : SourceFile) : Run Outcome := do
  let m := s.mapping
  let table := Table.ofModule f.tree
  let sites := collect m table f.tree
  if sites.isEmpty then return .untouched f []
  match s.oracle.fault? s.vocabulary table f.tree with
  | some reason => Run.log .warning ("Type oracle unavailable, treating argument types as unknown: " ++ reason)
  | none => pure ()
  let answerer := s.oracle.prepare s.vocabulary table f.tree
  let bound := conflicts m table [m.entryPoint, m.toleranceWrapper]
  let tags (c : CallSite) : List Tag := argumentTags s.vocabulary answerer c.path c.call
  let (plans, skipped) ← planAll m (fun c => decideCall m bound (tags c) c) sites
  if plans.isEmpty then return .untouched f skipped
  let spliced ← Run.ofExcept (splice m (plans.map fun r => (r.site.path, r.classification)) f.tree)
  let rewritten := plans.filter fun r => spliced.applied.contains r.site.path
  let failed := spliced.failed.filterMap fun e =>
    (plans.find? fun r => r.site.path = e.1).map fun r => (⟨r.site, e.2⟩ : Skipped)
  return {
    file := { f with tree := spliced.tree }
    rewritten := rewritten
    skipped := skipped ++ failed
    edits := []
    required := sortedOnce (rewritten.flatMap fun r => requiredNames m r.classification)
    reconciled := false }

/-- Fixes the imports of a file with new calls. -/
def reconcileImports (m : Mapping) (o : Outcome) : Run Outcome := do
  if o.rewritten.isEmpty || o.reconciled then return o
  let r ← apply m (plan m o.required o.file.tree) o.file
  return { o with file := r.file, edits := r.edits, reconciled := true }

/-- Rewrites the calls and fixes the imports. -/
def rewrite (s : Setup) (f : SourceFile) : Run Outcome := do
  reconcileImports s.mapping (← rewriteCalls s f)

/-- Reads the text of a file. -/
def readSource (code file : String) : Run SourceFile :=
  match SourceFile.parse? code with
  | some f => pure f
  | none => throw (.parse "Failed to parse source" file none none)

/-- The new text of a file, and what the rewriting came to. -/
def migrateWithOutcome (s : Setup) (code : String) : Run (String × Outcome) := do
  let o ← rewrite s (← readSource code "<string>")
  return (if o.changed then o.file.code else code, o)

/-- The new text of a file. -/
def migrateSource (s : Setup) (code : String) : Run String :=
  Prod.fst <$> migrateWithOutcome s code

end FluentShift.Rewrite
