import FluentShift.Imports.Edit
import FluentShift.Source.File
import FluentShift.Source.Literal
import FluentShift.Scope.Walk

/-!
# FluentShift.Imports.Remove - removing imports that nothing uses

An import asked to go is kept while some use can refer to it or the module exports its name.  What goes:

* a name, with its comma and the blanks and comments around the comma;
* a statement without names left, with its semicolon;
* a line without statements left, with the lines before it, but never the first lines of the module.

A block that loses its last line gets a `pass`.
-/

namespace FluentShift.Imports

open FluentShift.Source FluentShift.Scope

/-- The imports asked to go: modules with their aliases, and names from modules. -/
structure Unwanted where
  modules : List (String × Option String)
  names : List (String × String × Option String)
  deriving Repr

/-! ### Exported names -/

/-- The strings listed in an expression: the items of a list, a tuple or a set. -/
def listedStrings (sets : Bool) (e : Tree) : List String :=
  let inner := e.unparen
  if inner.isKind .list || inner.isKind .tuple || (sets && inner.isKind .brace) then
    inner.elements.filterMap Tree.stringValue?
  else []

/-- The names that a module exports: the strings assigned or added to `__all__`. -/
def exportedNames (t : Tree) : List String :=
  (t.nodesWhere fun k => k = .assign || k = .annAssign || k = .augAssign).flatMap fun n =>
    let es := n.2.elements
    let isAll : Tree → Bool := fun e => e.unparen.name? = some "__all__"
    let value := es.getLast?.getD (.leaf default)
    match n.2 with
    | .node .augAssign _ =>
      if (es.head?.map isAll).getD false && n.2.parts.any (·.isMark "+=") then listedStrings false value else []
    | _ => if es.dropLast.any isAll then listedStrings true value else []

/-! ### Which names stay -/

/-- Whether a name bound by an import in a scope is in use: exported, or referred to through an import. -/
def isInUse (table : Table) (exported : List String) (scope : ScopeId) (name : String) : Bool :=
  let isImport : Binding → Bool := fun b => match b.origin with
    | .imported _ => true
    | .defined => false
  (dottedPrefixes name).any fun n =>
    exported.contains n || (table.lookup scope n).any fun b => isImport b && table.isReferenced b

/-- Whether an imported name of a statement stays. -/
def stays (u : Unwanted) (table : Table) (exported : List String) (scope : ScopeId) (i : ImportStatement)
    (n : ImportedName) : Bool :=
  let asked := match i.source with
    | none => u.modules.lookup n.name = some n.alias_
    | some m => m.dots = 0 && u.names.contains (i.moduleName, n.name, n.alias_)
  !asked || isInUse table exported scope (n.alias_.getD n.name)

/-- For every import statement that loses a name, whether each of its names stays. -/
def verdicts (u : Unwanted) (table : Table) (t : Tree) : List (Path × List Bool) :=
  let exported := exportedNames t
  (importStatements t).filterMap fun s =>
    let scope := (table.places.lookup s.1).getD 0
    let kept := s.2.list.map (stays u table exported scope s.2)
    if kept.all (·) then none else some (s.1, kept)

/-! ### Taking names out -/

/-- A name of an import statement, and the comma after it with everything around the comma. -/
structure NameGroup where
  alias_ : Tree
  comma : List Tree
  deriving Inhabited, Repr

/-- The names of an import statement from its children, and what comes after them. -/
def nameGroups : Nat → List Tree → List NameGroup × List Tree
  | 0, ts => ([], ts)
  | fuel + 1, ts =>
    match ts with
    | [] => ([], [])
    | t :: ts =>
      if t.isKind .importAlias then
        let before := ts.takeWhile Tree.isTrivia
        match ts.drop before.length with
        | c :: rest =>
          if c.isMark "," then
            let after := rest.takeWhile Tree.isTrivia
            let r := nameGroups fuel (rest.drop after.length)
            (⟨t, before ++ c :: after⟩ :: r.1, r.2)
          else ([⟨t, []⟩], ts)
        | [] => ([⟨t, []⟩], ts)
      else ([], t :: ts)

/-- An import statement with only the names that stay. -/
def keepNames (kept : List Bool) (statement : Tree) : Tree :=
  let before := statement.children.takeWhile (!·.isKind .importAlias)
  let (groups, tail) := nameGroups statement.children.length (statement.children.drop before.length)
  let left := ((groups.zip kept).filter (·.2)).map (·.1)
  -- a comma behind the last name is its own; a name that becomes the last one loses its comma
  let lastStays := kept.getLast?.getD true
  let names := left.dropLast.flatMap (fun g => g.alias_ :: g.comma) ++
    match left.getLast? with
    | some g => if lastStays then g.alias_ :: g.comma else [g.alias_]
    | none => []
  .node (statement.kind?.getD .importStmt) (before ++ names ++ tail)

/-! ### Taking statements out -/

/-- The children of a line without the statements that are gone.  A statement goes with its semicolon and the blanks
around that. -/
def keepStatements : List (Tree × Option Tree) → List Tree
  | [] => []
  | (_, some t) :: ts => t :: keepStatements ts
  | (_, none) :: ts => skipSemicolon [] ts
where
  /-- After a statement that is gone: drops its semicolon; `lead` is the trivia before it. -/
  skipSemicolon (lead : List Tree) : List (Tree × Option Tree) → List Tree
    | [] => lead
    | (t, r) :: ts =>
      if t.isTrivia then skipSemicolon (lead ++ [t]) ts
      else if t.isMark ";" then skipBlanks ts
      else lead ++ (r.toList ++ keepStatements ts)
  /-- After a semicolon that is gone: drops the blanks up to a comment or the next statement. -/
  skipBlanks : List (Tree × Option Tree) → List Tree
    | [] => []
    | (t, r) :: ts =>
      if t.isTrivia && !t.isComment then skipBlanks ts
      else match r with
        | some t => t :: keepStatements ts
        | none => skipSemicolon [] ts

/-- The keyword that fills an empty block. -/
def passMark : Tree := .leaf ⟨.mark, "pass"⟩

/-- Whether a child of a line is a statement. -/
def isStatement (t : Tree) : Bool :=
  !t.isTrivia && !t.isMark ";" && !t.isEndOfLine

/-- Lines with the ones that are gone left out, the trivia before them with them. -/
def keepLines (is : List (Item × Option Tree)) : List Tree :=
  Item.flatten (is.filterMap fun i => i.2.map fun t => { i.1 with body := t })

/-- Pairs the items of a node with what is left of their bodies. -/
def itemsLeft (ts : List (Tree × Option Tree)) : List (Item × Option Tree) × List Tree :=
  let (is, tail) := items (ts.map (·.1))
  let left := (ts.filter fun t => !t.1.isTrivia).map (·.2)
  (is.zip left, tail)

/-- What is left of a block: the end of its first line, the lines that stay, or a `pass` indented like its first
line. -/
def keepBlock (lineBreak : String) (ts : List (Tree × Option Tree)) : Tree :=
  let (is, tail) := itemsLeft ts
  -- the first item ends the line that the block belongs to
  let lines := is.drop 1
  let indent := ((lines.head?.bind fun i => i.1.lead.getLast?).filter fun t => !t.isLineBreak).toList
  let filler := if lines.any (·.2.isSome) then []
    else indent ++ [.node .simpleLine [passMark, .leaf ⟨.endOfLine, lineBreak⟩]]
  .node .block (keepLines is ++ filler ++ tail)

/-- What is left of a module; the trivia before its first line stays. -/
def keepModule (ts : List (Tree × Option Tree)) : Tree :=
  let (is, tail) := itemsLeft ts
  match is with
  | [] => .node .module tail
  | first :: rest =>
    .node .module (first.1.lead ++ keepLines (({ first.1 with lead := [] }, first.2) :: rest) ++ tail)

/-- What is left of a tree at a path once the statements have lost their names; none if nothing is. -/
def prune (lineBreak : String) (vs : List (Path × List Bool)) (t : Tree) : Tree :=
  let leaf : Leaf → Path → Option Tree := fun l _ => some (.leaf l)
  let node : Kind → List (Tree × (Path → Option Tree)) → Path → Option Tree := fun k ts p =>
    let self : Tree := .node k (ts.map (·.1))
    let results := (Tree.locate p ts).map fun c => (c.2.1, c.2.2 c.1)
    match vs.lookup p, k with
    | some kept, _ => if kept.any (·) then some (keepNames kept self) else none
    | none, .simpleLine =>
      if (results.filter fun r => isStatement r.1).any (·.2.isSome) then some (.node k (keepStatements results))
      else none
    | none, .suite =>
      let left := keepStatements results
      some (.node k (if left.any isStatement then left else passMark :: left))
    | none, .block => some (keepBlock lineBreak results)
    | none, .module => some (keepModule results)
    | none, _ => some (.node k (results.map fun r => r.2.getD r.1))
  (Tree.para leaf node t []).getD t

/-- Removes the unwanted imports that nothing uses. -/
def remove (lineBreak : String) (u : Unwanted) (t : Tree) : Tree :=
  prune lineBreak (verdicts u (Table.ofModule t) t) t

end FluentShift.Imports
