import FluentShift.Files.Access
import FluentShift.Mapping
import FluentShift.Source.Fault
import FluentShift.Source.Import
import FluentShift.Text.Split

/-!
# FluentShift.Migration.Candidate - files that may have work

A source is a candidate when one of its imports, at any depth, makes the legacy function reachable.  A source that does
not even mention the package of the legacy function is none, whether it can be parsed or not.
-/

namespace FluentShift.Migration

open FluentShift.Files FluentShift.Source

/-! ### Imports -/

/-- Whether a name is among the imported ones, or all are. -/
def imports (i : ImportStatement) (name : String) : Bool :=
  match i.imported with
  | .star => true
  | .names ns => ns.any (·.name = name)

/-- Whether a dotted name is another one or goes on after it. -/
def startsAt (name package : String) : Bool :=
  name = package || (package ++ ".").toList.isPrefixOf name.toList

/-- Whether an import statement makes the legacy function reachable. -/
def reachesLegacy (m : Mapping) (i : ImportStatement) : Bool :=
  match i.source with
  | none => i.list.any fun n => startsAt m.legacyType n.name
  | some ⟨0, some module⟩ =>
    (module = m.legacyType && imports i m.legacyMethod) || (some module = m.legacyParent && imports i m.legacyLeaf)
  | some _ => false

/-- The import statements of a tree, at any depth. -/
def importsOf (t : Tree) : List ImportStatement :=
  (t.nodesOf .importStmt ++ t.nodesOf .importFrom).filterMap fun n => n.2.importStatement?

/-! ### Sources -/

/-- Whether one text occurs in another. -/
def occursIn (part : List Char) : List Char → Bool
  | [] => part.isEmpty
  | c :: cs => part.isPrefixOf (c :: cs) || occursIn part cs

/-- Whether a text mentions the package of the legacy function. -/
def mentionsLegacy (m : Mapping) (text : String) : Bool :=
  occursIn ((Text.split '.' m.legacyType).headD "").toList text.toList

/-- Whether a source is a candidate. -/
def isCandidate (m : Mapping) (text : String) : Except SourceFault Bool :=
  if mentionsLegacy m text then (strictModule text).map fun t => (importsOf t).any (reachesLegacy m) else .ok false

/-- Whether the source in a file is a candidate. -/
def isCandidateFile (m : Mapping) (d : Disk) (path : String) : Except Failure Bool := do
  let text ← readText d path
  (isCandidate m text).mapError fun f => .source f ""

end FluentShift.Migration
