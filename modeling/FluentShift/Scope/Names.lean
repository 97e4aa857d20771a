import FluentShift.Scope.Table
import FluentShift.Text.Split

/-!
# FluentShift.Scope.Names - qualified names

The qualified name of a use says where its meaning comes from: `m.x` for an import, `f.<locals>.x` for a name bound in
a function, `builtins.x` for a name of the language.  A name with several bindings has several qualified names.
-/

namespace FluentShift.Scope

open FluentShift.Source

/-! ### Dotted names in expressions -/

/-- The dotted name an expression is spelled with: calls and subscripts give the name of what they are applied to, and
an attribute of something without a name starts with `None`. -/
def fullName? : Tree → Option String :=
  let leaf : Leaf → Option String := fun l => if l.kind = .name then some l.text else none
  let node : Kind → List (Tree × Option String) → Option String := fun k ts =>
    let parts := ts.filter fun t => !t.1.isTrivia
    match k, parts with
    | .paren, [_, e, _] => e.2
    | .attribute, [v, _, a] => some (v.2.getD "None" ++ "." ++ a.1.text)
    | .call, f :: _ => f.2
    | .subscript, v :: _ => v.2
    | _, _ => none
  Tree.para leaf node

/-- The dotted names that a chain of attributes on a name starts with, the whole chain first, each with the path of
its node below `p`; empty if the chain does not start with a name. -/
def dottedChain (p : Path) (t : Tree) : List (String × Path) :=
  let leaf : Leaf → Path → List (String × Path) := fun l p => if l.kind = .name then [(l.text, p)] else []
  let node : Kind → List (Tree × (Path → List (String × Path))) → Path → List (String × Path) := fun k ts p =>
    let parts := (Tree.locate p ts).filter fun t => !t.2.1.isTrivia
    match k, parts with
    | .paren, [_, e, _] => e.2.2 e.1
    | .attribute, [v, _, a] =>
      match v.2.2 v.1 with
      | [] => []
      | (n, q) :: rest => (n ++ "." ++ a.2.1.text, p) :: (n, q) :: rest
    | _, _ => []
  Tree.para leaf node t p

/-- The parts of a dotted name. -/
def dottedParts (name : String) : List String :=
  Text.split '.' name

/-- The leading parts of a dotted name, put together: the whole name first, its first part last. -/
def dottedPrefixes (name : String) : List String :=
  let parts := dottedParts name
  (List.range parts.length).map fun i => String.intercalate "." (parts.take (parts.length - i))

/-! ### Qualified names of bindings -/

/-- What is left of `name` after `head`, if `head` is all of it or ends at a dot of it. -/
def afterHead? (name head : String) : Option String :=
  let n := name.toList
  let h := head.toList
  if h.isPrefixOf n then
    let rest := n.drop h.length
    match rest with
    | [] => some ""
    | '.' :: _ => some (String.ofList (rest.dropWhile (· = '.')))
    | _ => if h = [] then some (String.ofList rest) else none
  else none

/-- The qualified names that an import gives to a dotted name. -/
def importedQualified (i : ImportStatement) (fullName : String) : List String :=
  let m := i.moduleName
  let m := if m = "" then "" else if m.endsWith "." then m else m ++ "."
  i.list.filterMap fun n =>
    (dottedPrefixes n.name).findSome? fun real =>
      (afterHead? fullName (n.alias_.getD real)).map fun rest =>
        if rest = "" then m ++ real else m ++ real ++ "." ++ rest

/-- The qualified names of a dotted name whose meaning comes from a binding. -/
def Binding.qualified (t : Table) (b : Binding) (fullName : String) : List String :=
  match b.origin with
  | .imported i => importedQualified i fullName
  | .defined =>
    let label := (t.info b.scope).label
    [if label = "" then fullName else label ++ "." ++ fullName]

namespace Table

/-- The qualified names of a dotted name in a scope, by its longest part that means something there. -/
def qualifiedIn (t : Table) (s : ScopeId) (fullName : String) : List String :=
  match (dottedPrefixes fullName).find? (t.binds s) with
  | none => []
  | some head =>
    match t.lookup s head with
    | [] => ["builtins." ++ head]
    | bs => (bs.flatMap (·.qualified t fullName)).eraseDups

/-! ### Uses -/

/-- The dotted name that a use stands for: the longest one in its chain that its scope binds, and its node. -/
def resolveUse (t : Table) (u : Use) : String × Option Path :=
  match u.chain.find? (fun c => t.binds u.scope c.1) with
  | some c => c
  | none => ((u.chain.getLast?.map (·.1)).getD u.name, u.node)

/-- The bindings that a use refers to, with nothing when it means a name of the language. -/
def referents (t : Table) (u : Use) : List Binding :=
  let name := (t.resolveUse u).1
  let before := (t.lookup u.scope name).filter fun b => b.scope ≠ u.scope || b.index < u.index
  if before.isEmpty && u.scope ≠ 0 then t.lookup (t.info u.scope).parent name else before

/-- The qualified names that a use gives to its node. -/
def qualifiedUse (t : Table) (u : Use) : List String :=
  let name := (t.resolveUse u).1
  let builtin := if builtinNames.contains name then ["builtins." ++ name] else []
  match t.lookup u.scope name with
  | [] => builtin
  | _ =>
    match t.referents u with
    | [] => builtin
    | bs => (bs.flatMap fun b => b.qualified t b.name).eraseDups

/-- The qualified names of the expression `e` at path `p`: those of the use at that very node, or those of its
spelling in its scope; none for a node that was not read as an expression. -/
def qualifiedAt (t : Table) (p : Path) (e : Tree) : List String :=
  match t.places.lookup p with
  | none => []
  | some s =>
    match t.uses.filter (fun u => (t.resolveUse u).2 = some p) with
    | [] => ((fullName? e).map (t.qualifiedIn s)).getD []
    | us => (us.flatMap t.qualifiedUse).eraseDups

/-- Whether some use can refer to a binding. -/
def isReferenced (t : Table) (b : Binding) : Bool :=
  t.uses.any fun u => (t.lookup u.scope (t.resolveUse u).1).contains b

end Table

end FluentShift.Scope
