import FluentShift.Imports.Edit
import FluentShift.Source.File
import FluentShift.Text.Split

/-!
# FluentShift.Imports.Add - adding imports to a module

* The leading imports of a module are the first lines, after a description of the module, that hold one import each.
* A name that a leading import already gives is not added again.
* A name joins the first leading import from its module; the others get statements of their own after the leading
  imports, modules before names, and one empty line sets them off from what follows.
* Names from `__future__` come before the leading imports.
-/

namespace FluentShift.Imports

open FluentShift.Source

/-- An import that is wanted: a module, or a name from a module. -/
structure Wanted where
  module : String
  name : Option String
  deriving DecidableEq, Repr, Inhabited

/-! ### The leading imports -/

/-- Whether a line describes the module: a lone string, or the strictness flag. -/
def isPreamble (line : Tree) : Bool :=
  match line.onlyStatement? with
  | none => false
  | some s =>
    match s.unparen with
    | .leaf l => l.kind = .string
    | .node .assign _ => (s.elements.dropLast.map fun t => t.unparen.name?) = [some "__strict__"]
    | _ => false

/-- Whether a line is one import. -/
def isImportLine (line : Tree) : Bool :=
  match line.onlyStatement? with
  | some s => s.isKind .importStmt || s.isKind .importFrom
  | none => false

/-- The lines of a module cut before and after its leading imports. -/
def splitLeading (lines : List Item) : List Item × List Item × List Item :=
  let preamble := (lines.take 1).filter fun i => isPreamble i.body
  let rest := lines.drop preamble.length
  let leading := rest.takeWhile fun i => isImportLine i.body
  (preamble, leading, rest.drop leading.length)

/-- What an import line imports. -/
def lineEntries (line : Tree) : List Entry :=
  (((line.onlyStatement?).bind Tree.importStatement?).map entriesOf).getD []

/-- Whether imports give a wanted one. -/
def Wanted.isGiven (w : Wanted) (es : List Entry) : Bool :=
  es.contains ⟨w.module, w.name, none⟩ || (w.name.isSome && es.contains ⟨w.module, some "*", none⟩)

/-! ### Joining a statement -/

/-- The module of a line that takes more names from it. -/
def joinableModule? (line : Tree) : Option String :=
  match (line.onlyStatement?).bind Tree.importStatement? with
  | some ⟨some m, .names _⟩ => if m.dots = 0 then m.name else none
  | _ => none

/-- A new name and the comma after it. -/
def newName (name : String) : List Tree :=
  [.node .importAlias [.leaf ⟨.name, name⟩], .leaf ⟨.mark, ","⟩, .leaf ⟨.blank, " "⟩]

/-- Puts names in front of the names that an import takes. -/
def joinNames (names : List String) (statement : Tree) : Tree :=
  let before := statement.children.takeWhile (!·.isKind .importAlias)
  .node .importFrom (before ++ names.flatMap newName ++ statement.children.drop before.length)

/-- Puts names in front of the names that an import line takes. -/
def joinLine (names : List String) (line : Tree) : Tree :=
  .node .simpleLine (line.children.map fun c => if c.isKind .importFrom then joinNames names c else c)

/-- The names that join each line: those wanted from its module, unless an earlier line took them. -/
def joinAll (wanted : String → List String) : List String → List Item → List Item
  | _, [] => []
  | taken, i :: is =>
    match joinableModule? i.body with
    | some m =>
      let names := if taken.contains m then [] else wanted m
      let body := if names = [] then i.body else joinLine names i.body
      { i with body := body } :: joinAll wanted (m :: taken) is
    | none => i :: joinAll wanted taken is

/-! ### New statements -/

/-- Reads the text of one statement on a line of its own. -/
def statementLine? (lineBreak text : String) : Option Item :=
  match (parseModule? (text ++ lineBreak)).map (·.parts) with
  | some [line] => some ⟨[], line⟩
  | _ => none

/-- An empty line before the first of some lines, unless there is one already. -/
def setOff (lineBreak : String) : List Item → List Item
  | [] => []
  | i :: is =>
    let first := i.lead.takeWhile (!·.isLineBreak)
    if first.length < i.lead.length && !first.any Tree.isComment then i :: is
    else { i with lead := .leaf ⟨.lineBreak, lineBreak⟩ :: i.lead } :: is

/-- Strings in order, each once. -/
def sortedOnce (ss : List String) : List String :=
  Text.sortBy (fun a b => decide (a ≤ b)) ss.eraseDups

theorem mem_sortedOnce {ss : List String} {n : String} : n ∈ sortedOnce ss ↔ n ∈ ss := by
  rw [sortedOnce, (Text.sortBy_perm _ _).mem_iff, List.mem_eraseDups]

/-- The wanted imports that the leading ones do not give. -/
def missingFrom (wanted : List Wanted) (leading : List Item) : List Wanted :=
  wanted.filter fun w => !w.isGiven (leading.flatMap fun i => lineEntries i.body)

/-- The names that are missing from a module. -/
def namesFrom (missing : List Wanted) (m : String) : List String :=
  sortedOnce ((missing.filter (·.module = m)).filterMap (·.name))

/-- The modules that are missing themselves. -/
def modulesOf (missing : List Wanted) : List String :=
  sortedOnce ((missing.filter (·.name.isNone)).map (·.module))

/-- The modules that names are missing from and that no leading import is joinable for. -/
def sourcesOf (missing : List Wanted) (joinable : List String) : List String :=
  sortedOnce ((missing.filter fun w => w.name.isSome && !joinable.contains w.module).map (·.module))

/-- The line that imports the missing names from a module. -/
def fromLine? (lineBreak : String) (missing : List Wanted) (m : String) : Option Item :=
  statementLine? lineBreak ("from " ++ m ++ " import " ++ String.intercalate ", " (namesFrom missing m))

/-- Lines without the trivia before the first one. -/
def bare : List Item → List Item
  | i :: is => { i with lead := [] } :: is
  | [] => []

/-- The lines of a module with new ones among them: `first` before the leading imports `joined`, `fresh` after them.  The
trivia before the first line of the module is left out. -/
def arrange (lineBreak : String) (preamble first joined fresh rest : List Item) : List Item :=
  if preamble ≠ [] then bare preamble ++ first ++ joined ++ fresh ++ setOff lineBreak rest
  else if joined ≠ [] then first ++ bare joined ++ fresh ++ setOff lineBreak rest
  else first ++ fresh ++ setOff lineBreak (bare rest)

/-- Adds the wanted imports to a module; none if one of them cannot be written. -/
def add (lineBreak : String) (wanted : List Wanted) (t : Tree) : Option Tree := do
  let (lines, tail) := items t.children
  let (preamble, leading, rest) := splitLeading lines
  let missing := missingFrom wanted leading
  let joined := joinAll (namesFrom missing) [] leading
  let joinable := leading.filterMap fun i => joinableModule? i.body
  if joinable.any fun m => (namesFrom missing m).contains "" then none
  let modules := modulesOf missing
  let sources := sourcesOf missing joinable
  let first ← (sources.filter (· = "__future__")).mapM (fromLine? lineBreak missing)
  let plain ← modules.mapM fun m => statementLine? lineBreak ("import " ++ m)
  let named ← (sources.filter (· ≠ "__future__")).mapM (fromLine? lineBreak missing)
  if modules = [] && sources = [] then
    return .node .module (Item.flatten (preamble ++ joined ++ rest) ++ tail)
  -- The trivia before the first line belongs to the module and stays in front.
  let header := (lines.head?.map (·.lead)).getD tail
  let lines := arrange lineBreak preamble first joined (plain ++ named) rest
  let footer := if lines.length = first.length + plain.length + named.length then [] else tail
  return .node .module (header ++ Item.flatten lines ++ footer)

end FluentShift.Imports
