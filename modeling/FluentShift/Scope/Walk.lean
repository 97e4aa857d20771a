import FluentShift.Scope.Names
import FluentShift.Source.Literal

/-!
# FluentShift.Scope.Walk - reading the scopes of a module

`Table.ofModule` walks a tree once and records every scope, binding and use.

* The value of an assignment is read before its targets, so it does not see the names they bind.
* A default value and an annotation of a parameter belong to the scope around the function.
* The first iterable of a comprehension belongs to the scope around it.
* A string in an annotation, or where a type is expected, is read as code; names in it are uses only.
* The subject and the captures of a pattern are uses: matching binds nothing here.
-/

namespace FluentShift.Scope

open FluentShift.Source

/-- Where the walk is. -/
structure Here where
  scope : ScopeId
  /-- Names are bound, not used. -/
  store : Bool
  /-- The dotted names of the outermost attribute around, if the walk is inside one. -/
  chain : Option (List (String × Path))
  hinted : Bool
  typeHint : Bool
  /-- Strings are not read as code. -/
  verbatim : Bool
  /-- The walk is inside a string. -/
  quoted : Bool
  /-- The scope for the iterable of the comprehension part that is read next, if it is not the current one. -/
  iterable : Option ScopeId

/-- The place where a module starts. -/
def Here.start : Here := ⟨0, false, none, false, false, false, false, none⟩

/-- The place with names in it used. -/
def Here.load (h : Here) : Here := { h with store := false }

/-- The place with names in it bound; inside a string nothing is. -/
def Here.bindNames (h : Here) : Here := { h with store := !h.quoted }

/-- Reads one tree at a path and a place. -/
abbrev Walk := Path → Here → StateM Table Unit

/-! ### Recording -/

/-- The scope that a binding of `name` made in scope `s` goes to. -/
def Table.bindTarget (t : Table) (name : String) : Nat → ScopeId → ScopeId
  | 0, s => s
  | fuel + 1, s =>
    let i := t.info s
    match i.redirects.lookup name with
    | some .toModule => 0
    | some .toParent =>
      match (t.info i.parent).kind with
      | .class _ => bindTarget t name fuel (t.info i.parent).parent
      | _ => bindTarget t name fuel i.parent
    | none => s

/-- Records a binding. -/
def bind (s : ScopeId) (name : String) (origin : Origin) : StateM Table Unit :=
  modify fun t =>
    let target := t.bindTarget name (t.scopes.size + 1) s
    { t with
      bindings := t.bindings ++ [⟨name, target, origin, (t.info target).count⟩]
      scopes := t.scopes.modify target fun i => { i with count := i.count + 1 } }

/-- Records a use. -/
def use (name : String) (p : Path) (h : Here) : StateM Table Unit :=
  modify fun t =>
    let node (q : Path) : Option Path := if h.quoted then none else some q
    let chain := (h.chain.getD []).map fun c => (c.1, node c.2)
    { t with uses := ⟨name, h.scope, (t.info h.scope).count, node p, chain⟩ :: t.uses }

/-- Records the scope that an expression is read in. -/
def place (p : Path) (h : Here) : StateM Table Unit :=
  if h.quoted then pure () else modify fun t => { t with places := (p, h.scope) :: t.places }

/-- Opens a scope inside the current one. -/
def openScope (kind : ScopeKind) (h : Here) : StateM Table Here := do
  let t ← get
  let outer := (t.info h.scope).label
  let dot (parts : List String) : String := String.intercalate "." (parts.filter (· ≠ ""))
  let label := match kind with
    | .module => ""
    | .function name => dot [outer, name.getD "", "<locals>"]
    | .class name => dot [outer, name]
    | .comprehension => dot [outer, "<comprehension>"]
    | .hint => outer
  set { t with scopes := t.scopes.push ⟨kind, h.scope, label, [], 0⟩ }
  return { h with scope := t.scopes.size }

/-- Redirects names of a scope; the module's names are never redirected. -/
def redirect (s : ScopeId) (names : List String) (target : Redirect) : StateM Table Unit :=
  if s = 0 then pure () else modify fun t =>
    { t with scopes := t.scopes.modify s fun i => { i with redirects := names.map (·, target) ++ i.redirects } }

/-! ### One node -/

/-- A child of a node: its path, its tree and how it is read. -/
structure Child where
  path : Path
  tree : Tree
  read : Walk

namespace Child

/-- Reads a child. -/
def go (c : Child) (h : Here) : StateM Table Unit := c.read c.path h

end Child

/-- Reads children one after the other. -/
def goAll (cs : List Child) (h : Here) : StateM Table Unit :=
  cs.forM (·.go h)

/-- The children that are nodes of kind `k`. -/
def ofKind (k : Kind) (cs : List Child) : List Child :=
  cs.filter (·.tree.isKind k)

/-- The qualified names of an expression by its spelling. -/
def spelledNames (e : Tree) (s : ScopeId) : StateM Table (List String) := do
  let t ← get
  return ((fullName? e).map (t.qualifiedIn s)).getD []

/-- Reads a function: its parameters and body in a scope of its own, the rest around it. -/
def walkFunction (cs : List Child) (h : Here) : StateM Table Unit := do
  let name := (cs.find? (·.tree.name?.isSome)).bind (·.tree.name?)
  let typeParams := ofKind .typeParams cs
  let around ← if typeParams.isEmpty then pure h else openScope .hint h
  goAll typeParams around
  let inside ← openScope (.function name) around
  goAll (ofKind .params cs) inside
  goAll (cs.filter fun c => c.tree.isKind .block || c.tree.isKind .suite) inside
  -- decorators and the result are read after the body, which matters for what a use can see
  goAll (ofKind .decorator cs) around
  goAll (ofKind .returns cs) around
  match name with
  | some n => bind h.scope n .defined
  | none => pure ()

/-- Reads a class: its arguments around it, its body in a scope of its own. -/
def walkClass (cs : List Child) (h : Here) : StateM Table Unit := do
  let name := ((cs.find? (·.tree.name?.isSome)).bind (·.tree.name?)).getD ""
  goAll (ofKind .decorator cs) h
  let typeParams := ofKind .typeParams cs
  let around ← if typeParams.isEmpty then pure h else openScope .hint h
  goAll typeParams around
  goAll (ofKind .argument cs) around
  let inside ← openScope (.class name) around
  goAll (cs.filter fun c => c.tree.isKind .block || c.tree.isKind .suite) inside
  bind h.scope name .defined

/-- Reads a lambda. -/
def walkLambda (cs : List Child) (h : Here) : StateM Table Unit := do
  let inside ← openScope (.function none) h
  goAll cs inside

/-- Reads a parameter: its name is bound in the function, the rest is read around it. -/
def walkParam (cs : List Child) (h : Here) : StateM Table Unit := do
  let t ← get
  -- a default is read where the function stands, not in it
  let outside := { h with scope := (t.info h.scope).parent }
  let name := (cs.find? (·.tree.name?.isSome))
  let rest := match name with
    | some n => cs.filter (·.path ≠ n.path)
    | none => cs
  goAll (rest.filter (!·.tree.isKind .hint)) outside
  goAll (ofKind .hint rest) outside
  match name.bind (·.tree.name?) with
  | some n => bind h.scope n .defined
  | none => pure ()

/-- The parts of one `for` of a comprehension: target, iterable, and what follows. -/
def forParts (cs : List Child) : List Child × List Child × List Child :=
  let nodes := cs.filter fun c => !c.tree.isMark "async" && !c.tree.isMark "for"
  let target := nodes.takeWhile (!·.tree.isMark "in")
  let rest := nodes.drop (target.length + 1)
  (target, rest.take 1, rest.drop 1)

/-- Reads the names a declaration redirects. -/
def declaredNames (cs : List Child) : List String :=
  cs.filterMap (·.tree.name?)

/-- Reads the bindings of an import statement. -/
def walkImport (i : ImportStatement) (s : ScopeId) : StateM Table Unit :=
  i.list.forM fun n =>
    match n.alias_ with
    | some a => bind s a (.imported i)
    | none => (dottedPrefixes n.name).forM fun m => bind s m (.imported i)

/-- Reads a call: the first argument of `cast` and the later arguments of `NewType` and `TypeVar` are types. -/
def walkCall (e : Tree) (cs : List Child) (h : Here) : StateM Table Unit := do
  let names ← spelledNames e h.scope
  let h := { h with chain := none, typeHint := false }
  let func := cs.take 1
  let args := ofKind .argument cs
  if names.contains "typing.NewType" || names.contains "typing.TypeVar" then
    goAll func h
    goAll (args.drop 1) { h with typeHint := true }
  else if names.contains "typing.cast" then
    goAll func h
    goAll (args.take 1) { h with typeHint := true }
    goAll (args.drop 1) h
  else goAll cs h

/-- Reads a subscript: inside one of `typing`, strings are types, but not those of a `Literal`. -/
def walkSubscript (cs : List Child) (h : Here) : StateM Table Unit := do
  let names ← match cs.head? with
    | some v => spelledNames v.tree h.scope
    | none => pure []
  let typing := names.any fun n => n.startsWith "typing." || n.startsWith "typing_extensions."
  let literal := names.contains "typing.Literal" || names.contains "typing_extensions.Literal"
  goAll cs { h with typeHint := typing, verbatim := h.verbatim || literal }

/-- Reads one node from how its children are read.  `onString` reads the value of a string as code. -/
def walkNode (onString : String → Here → StateM Table Unit) (k : Kind) (ts : List (Tree × Walk)) : Walk :=
  fun p h => do
    let cs : List Child := ((Tree.locate p ts).filter fun c => !c.2.1.isTrivia).map fun c => ⟨c.1, c.2.1, c.2.2⟩
    let self : Tree := .node k (ts.map (·.1))
    -- a string that stands for a type is code, but not inside a `Literal`
    let quotedCode := (h.hinted || h.typeHint) && !h.verbatim
    place p h
    match k with
    | .paren | .tuple | .starred => goAll cs h
    | .list =>
      if cs.any (·.tree.isKind .compFor) then walkComprehension cs h else goAll cs h
    | .brace => if cs.any (·.tree.isKind .compFor) then walkComprehension cs h else goAll cs h.load
    | .generator => walkComprehension cs h
    | .compFor =>
      let (target, iter, rest) := forParts cs
      -- only the first `for` has an iterable that is read outside
      let outer := h.iterable
      let h := { h with iterable := none }
      match outer with
      | some s =>
        goAll iter { h.load with scope := s }
        goAll target h.bindNames
      | none =>
        goAll target h.bindNames
        goAll iter h.load
      goAll rest h.load
    | .attribute =>
      let chain := h.chain.getD (dottedChain p self)
      -- the use of the first name carries the whole dotted name along
      goAll (cs.take 1) { h.load with chain := some chain }
    | .call => walkCall self cs h.load
    | .subscript => walkSubscript cs h.load
    | .argument => goAll (if cs.any (·.tree.isMark "=") then cs.drop 2 else cs) h.load
    | .concatenation =>
      match quotedCode, self.stringValue? with
      | true, some s => if s = "" then goAll cs h.load else onString s h
      | _, _ => goAll cs h.load
    | .hint | .returns => goAll cs { h.load with hinted := true }
    | .assign =>
      goAll (cs.reverse.take 1) h.load
      goAll cs.dropLast h.bindNames
    | .annAssign | .augAssign =>
      goAll (cs.drop 1) h.load
      goAll (cs.take 1) h.bindNames
    | .walrus =>
      goAll (cs.drop 1) h.load
      goAll (cs.take 1) h.bindNames
    | .forStmt =>
      let (target, iter, rest) := forParts cs
      goAll target h.bindNames
      goAll iter h.load
      goAll rest h.load
    | .withItem =>
      goAll (cs.take 1) h.load
      goAll (cs.drop 1) h.bindNames
    | .handler =>
      let before := cs.takeWhile (!·.tree.isMark "as")
      let after := cs.drop before.length
      goAll before h.load
      goAll (after.filter (·.tree.name?.isSome)) h.bindNames
      goAll (after.filter (!·.tree.name?.isSome)) h.load
    | .importStmt | .importFrom =>
      match self.importStatement? with
      | some i => walkImport i h.scope
      | none => pure ()
    | .globalStmt => redirect h.scope (declaredNames cs) .toModule
    | .nonlocalStmt => redirect h.scope (declaredNames cs) .toParent
    | .funcDef => walkFunction cs h.load
    | .classDef => walkClass cs h.load
    | .lambda => walkLambda cs h.load
    | .param | .starParam | .dictParam => walkParam cs h.load
    | .typeAlias =>
      match (cs.find? (·.tree.name?.isSome)).bind (·.tree.name?) with
      | some n => bind h.scope n .defined
      | none => pure ()
      let inside ← openScope .hint h
      goAll (ofKind .typeParams cs) inside
      goAll (cs.reverse.take 1) inside.load
    | .typeParam =>
      let name := cs.find? (·.tree.name?.isSome)
      match name.bind (·.tree.name?) with
      | some n => bind h.scope n .defined
      | none => pure ()
      goAll (cs.filter fun c => some c.path ≠ name.map (·.path)) h.load
    | _ => goAll cs h.load
where
  /-- Reads a comprehension: the first iterable outside, everything else in a scope of its own. -/
  walkComprehension (cs : List Child) (h : Here) : StateM Table Unit := do
    let inside ← openScope .comprehension h.load
    goAll (ofKind .compFor cs) { inside with iterable := some h.scope }
    goAll (cs.filter (!·.tree.isKind .compFor)) inside

/-- Reads one leaf. -/
def walkLeaf (onString : String → Here → StateM Table Unit) (l : Leaf) : Walk := fun p h =>
  match l.kind with
  | .name => do
    place p h
    if h.store then bind h.scope l.text .defined else use l.text p h
  | .string =>
    if (h.hinted || h.typeHint) && !h.verbatim then
      match literalValue? l.text with
      | some s => if s = "" then pure () else onString s h
      | none => pure ()
    else pure ()
  | _ => pure ()

/-! ### Whole modules -/

/-- Reads the value of a string as a module, up to `depth` strings inside one another. -/
def walkString : Nat → String → Here → StateM Table Unit
  | 0, _, _ => pure ()
  | depth + 1, s, h =>
    match parseModule? s with
    | none => pure ()
    | some t => t.para (walkLeaf (walkString depth)) (walkNode (walkString depth)) [] { h with quoted := true }

/-- The scopes, bindings and uses of a module.  A string inside a string is shorter than it, so the length of the text
bounds their nesting. -/
def Table.ofModule (t : Tree) : Table :=
  let onString := walkString t.text.length
  ((t.para (walkLeaf onString) (walkNode onString) [] .start).run .empty).2

end FluentShift.Scope
