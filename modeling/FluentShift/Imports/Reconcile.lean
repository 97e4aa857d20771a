import FluentShift.Imports.Add
import FluentShift.Imports.Remove
import FluentShift.Imports.Conflicts
import FluentShift.Log

/-!
# FluentShift.Imports.Reconcile - imports that fit the rewritten calls

`plan` says which imports a module needs and which legacy ones may go, `apply` does it, and reports the edits that
made a difference.
-/

namespace FluentShift.Imports

open FluentShift.Source

/-- The imports that bring the legacy function into a module. -/
def legacyForms (m : Mapping) : List (String × Option String) :=
  [(m.legacyType, some m.legacyMethod), (m.legacyType, none)] ++
    match m.legacyParent with
    | some p => [(p, some m.legacyLeaf)]
    | none => []

/-- The edits for a module that needs some fluent names: those are added, every legacy import may go. -/
def plan (m : Mapping) (required : List String) (t : Tree) : List Edit :=
  let forms := legacyForms m
  let going := (gather t).filter fun e => e.name ≠ some "*" && forms.contains (e.module, e.name)
  Edit.sorted (required.map (fun s => ⟨.add, m.fluentType, some s, none⟩) ++
    going.map fun e => ⟨.remove, e.module, e.name, e.alias_⟩)

/-- A module with its imports edited, and the edits that made a difference. -/
structure Reconciled where
  file : SourceFile
  added : List Edit
  removed : List Edit
  deriving Inhabited, Repr

namespace Reconciled

/-- The edits that made a difference. -/
def edits (r : Reconciled) : List Edit := r.added ++ r.removed

end Reconciled

/-- The imports that edits add. -/
def wantedOf (es : List Edit) : List Wanted :=
  (es.filter (·.kind = .add)).map fun e => ⟨e.module, e.name⟩

/-- The imports that edits take away; of several aliases of one module the last one counts. -/
def unwantedOf (es : List Edit) : Unwanted :=
  let going := es.filter (·.kind = .remove)
  ⟨((going.filter (·.name.isNone)).map fun e => (e.module, e.alias_)).reverse,
   going.filterMap fun e => e.name.map fun n => (e.module, n, e.alias_)⟩

/-- Applies edits to a module, all of them or none. -/
def apply (m : Mapping) (es : List Edit) (f : SourceFile) : Run Reconciled := do
  if es = [] then return ⟨f, [], []⟩
  if es.any fun e => e.kind = .add && e.module = "__future__" && e.name.isNone then
    throw (.mishap .general "Cannot import __future__ directly!")
  match add f.lineBreak (wantedOf es) f.closedTree with
  | none =>
    Run.log .error "Import reconciliation failed"
    throw (.reconciliation "Failed to reconcile imports" (some m.fluentType))
  | some t =>
    -- what is still in use is asked of the module with its new imports
    let t := remove f.lineBreak (unwantedOf es) t
    let before := gather f.tree
    let after := gather t
    let added := es.filter fun e =>
      let entry : Entry := ⟨e.module, e.name, none⟩
      e.kind = .add && after.contains entry && !before.contains entry
    let removed := es.filter fun e =>
      let entry : Entry := ⟨e.module, e.name, e.alias_⟩
      e.kind = .remove && before.contains entry && !after.contains entry
    return ⟨f.withClosedTree t, added, removed⟩

end FluentShift.Imports
