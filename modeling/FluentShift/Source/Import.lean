import FluentShift.Source.Parse

/-!
# FluentShift.Source.Import - reading import statements

An `ImportStatement` is what one import statement says: where the names come from and which names it binds to what.
-/

namespace FluentShift.Source

/-- One imported name, dotted in a plain import, and the name it is bound to instead. -/
structure ImportedName where
  name : String
  alias_ : Option String
  deriving DecidableEq, Repr, Inhabited

/-- What an import statement takes from its module. -/
inductive ImportedNames where
  | star
  | names (ns : List ImportedName)
  deriving DecidableEq, Repr, Inhabited

/-- The module after `from`: the number of leading dots and the name after them. -/
structure FromModule where
  dots : Nat
  name : Option String
  deriving DecidableEq, Repr, Inhabited

/-- An import statement; `source` is there for the form that starts with `from`. -/
structure ImportStatement where
  source : Option FromModule
  imported : ImportedNames
  deriving DecidableEq, Repr, Inhabited

namespace ImportStatement

/-- The module that the names come from, dots included; empty for a plain import. -/
def moduleName (i : ImportStatement) : String :=
  match i.source with
  | none => ""
  | some m => String.ofList (List.replicate m.dots '.') ++ m.name.getD ""

/-- The imported names, none for a star. -/
def list (i : ImportStatement) : List ImportedName :=
  match i.imported with
  | .star => []
  | .names ns => ns

end ImportStatement

namespace Tree

/-- The text of a name or of dotted names, without the blanks between them. -/
def dottedText (t : Tree) : String :=
  String.join ((t.leaves.filter (!·.kind.isTrivia)).map (·.text))

/-- Reads one imported name. -/
def importedName? (t : Tree) : Option ImportedName :=
  match t.isKind .importAlias, t.parts with
  | true, [n] => some ⟨n.dottedText, none⟩
  | true, [n, _, a] => some ⟨n.dottedText, a.name?⟩
  | _, _ => none

/-- Reads an import statement. -/
def importStatement? (t : Tree) : Option ImportStatement :=
  match t with
  | .node .importStmt _ => some ⟨none, .names (t.parts.filterMap importedName?)⟩
  | .node .importFrom _ =>
    let before := t.parts.takeWhile (!·.isMark "import")
    let after := t.parts.drop (before.length + 1)
    let dots := (before.filter fun p => p.isMark "." || p.isMark "...").foldl (fun n p => n + p.text.length) 0
    let name := (before.find? fun p => p.isKind .dotted || p.name?.isSome).map dottedText
    let names := if after.any (·.isMark "*") then .star else .names (after.filterMap importedName?)
    some ⟨some ⟨dots, name⟩, names⟩
  | _ => none

end Tree

end FluentShift.Source
