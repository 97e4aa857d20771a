import FluentShift.Mapping
import FluentShift.Source.Import
import FluentShift.Text.Split

/-!
# FluentShift.Imports.Edit - the imports of a module and changes to them

An `Entry` is one absolute import of a module, an `Edit` one import to add or to remove.  Edits are sorted by kind,
module, name and alias.
-/

namespace FluentShift.Imports

open FluentShift.Source

/-- One import: a module, the name taken from it (or the star), and the alias. -/
structure Entry where
  module : String
  name : Option String
  alias_ : Option String
  deriving DecidableEq, Repr, Inhabited

/-- Whether an import comes or goes. -/
inductive EditKind where
  | add
  | remove
  deriving DecidableEq, Repr, Inhabited

/-- The name of an edit kind in reports. -/
def EditKind.label : EditKind → String
  | .add => "add"
  | .remove => "remove"

/-- One import to add or to remove. -/
structure Edit where
  kind : EditKind
  module : String
  name : Option String
  alias_ : Option String
  deriving DecidableEq, Repr, Inhabited

namespace Edit

/-- The statement an edit is about. -/
def describe (e : Edit) : String :=
  let text := match e.name with
    | none => "import " ++ e.module
    | some n => "from " ++ e.module ++ " import " ++ n
  match e.alias_ with
  | none | some "" => text
  | some a => text ++ " as " ++ a

/-- The line for an edit in a report. -/
def reportLine (e : Edit) : String := e.kind.label ++ ": " ++ e.describe

/-- What edits are sorted by. -/
def sortKey (e : Edit) : List String :=
  [e.kind.label, e.module, e.name.getD "", e.alias_.getD ""]

/-- Whether an edit comes before another or at the same place. -/
def le (a b : Edit) : Bool := Text.listLe a.sortKey b.sortKey

/-- Edits in order, each once. -/
def sorted (es : List Edit) : List Edit :=
  Text.sortBy le es.eraseDups

end Edit

/-! ### The imports of a module -/

/-- The import statements of a tree with their paths, in the order of the text. -/
def importStatements (t : Tree) : List (Path × ImportStatement) :=
  let both := t.nodesWhere fun k => k = .importStmt || k = .importFrom
  both.filterMap fun n => (n.2.importStatement?).map fun i => (n.1, i)

/-- The imports that one statement contributes; imports relative to the package are left out. -/
def entriesOf (i : ImportStatement) : List Entry :=
  match i.source with
  | none => i.list.map fun n => ⟨n.name, none, n.alias_⟩
  | some m =>
    if m.dots ≠ 0 then []
    else
      match i.imported with
      | .star => [⟨i.moduleName, some "*", none⟩]
      | .names ns => ns.map fun n => ⟨i.moduleName, some n.name, n.alias_⟩

/-- The absolute imports of a module, each once.  Of several aliases of one module only the last counts, and a star
stands for all plain names taken from its module. -/
def gather (t : Tree) : List Entry :=
  let all := (importStatements t).flatMap fun s => entriesOf s.2
  let isModuleAlias (e : Entry) : Bool := e.name.isNone && e.alias_.isSome
  let lastAlias (module : String) : Option Entry :=
    (all.filter fun e => isModuleAlias e && e.module = module).getLast?
  let starred (module : String) : Bool := all.contains ⟨module, some "*", none⟩
  (all.filter fun e =>
    if isModuleAlias e then lastAlias e.module = some e
    else if e.name.isSome && e.alias_.isNone then e.name = some "*" || !starred e.module
    else true).eraseDups

end FluentShift.Imports
