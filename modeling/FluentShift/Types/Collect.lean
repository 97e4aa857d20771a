import FluentShift.Types.Infer

/-!
# FluentShift.Types.Collect - reading what a module says about its names

`Typing.ofModule` walks a module once.  Parameters, annotated names, assignments, loop and `with` targets, caught
exceptions, functions and classes bind names; only an annotation, a value or a function says something about the type.
A value is judged by what is known when the walk comes to it.
-/

namespace FluentShift.Types

open FluentShift.Source FluentShift.Scope

/-- Reads one tree at a path inside the scope of a node. -/
abbrev Collect := Path → Path → StateM Bindings Unit

/-- The names that a target binds; true for a name that is the whole target. -/
def targetNames (t : Tree) : List (String × Bool) :=
  let leaf : Leaf → List (String × Bool) := fun l => if l.kind = .name then [(l.text, true)] else []
  let node : Kind → List (Tree × List (String × Bool)) → List (String × Bool) := fun k ts =>
    match k with
    | .paren => ts.flatMap (·.2)
    | .tuple | .starred => ts.flatMap fun t => t.2.map fun n => (n.1, false)
    | .list => if ts.any (·.1.isKind .compFor) then [] else ts.flatMap fun t => t.2.map fun n => (n.1, false)
    | _ => []
  Tree.para leaf node t

/-- Everything an inference may use at this point of the walk. -/
def typingNow (vocabulary : Vocabulary) (table : Table) : StateM Bindings Typing := do
  return ⟨vocabulary, table, ← get⟩

/-- Records an inferred type. -/
def bindInferred (scope : Path) (name : String) (d : Option TypeDesc) : StateM Bindings Unit :=
  modify (·.bind ⟨scope, name, .inferred⟩ d)

/-- Records the type of an annotation. -/
def bindAnnotated (scope : Path) (name : String) (d : Option TypeDesc) : StateM Bindings Unit :=
  modify (·.bind ⟨scope, name, .annotated⟩ d)

/-- Records that a target is bound to something of type `d`; the parts of a list of targets are of unknown type. -/
def bindTarget (scope : Path) (target : Tree) (d : Option TypeDesc) : StateM Bindings Unit :=
  (targetNames target).forM fun n => bindInferred scope n.1 (if n.2 then d else none)

/-- Opens the scope of a node. -/
def enterScope (node : Path) (parent : Option Path) (isClass : Bool) : StateM Bindings Unit :=
  modify fun b => { b with scopes := ⟨node, parent, isClass⟩ :: b.scopes }

/-- The parts of a node with their paths. -/
def partsAt (p : Path) (t : Tree) : List (Path × Tree) :=
  (Tree.locate p t.children).filter (!·.2.isTrivia)

/-- The expression of an annotation below `p`, with its path. -/
def hintAt (p : Path) (t : Tree) : Option (Path × Tree) :=
  ((partsAt p t).drop 1).head?

/-- Records the parameters of a function or lambda in its own scope. -/
def bindParameters (vocabulary : Vocabulary) (table : Table) (p : Path) (t : Tree) : StateM Bindings Unit := do
  let params := ((partsAt p t).filter (·.2.isKind .params)).flatMap fun c => partsAt c.1 c.2
  for c in params.filter (·.2.isKind .param) do
    let parts := partsAt c.1 c.2
    let name := ((c.2.parameter?).map (·.name)).getD ""
    let ty ← typingNow vocabulary table
    match (parts.find? (·.2.isKind .hint)).bind fun a => hintAt a.1 a.2 with
    | some a => bindAnnotated p name (ty.ofHint a.1 a.2)
    | none =>
      match ((parts.dropWhile (!·.2.isMark "=")).drop 1).head? with
      | some d => bindInferred p name (ty.infer d.1 d.2)
      | none => bindInferred p name none
  (t.starredParameters).forM fun n => bindInferred p n none

/-- What a definition of a function says about its name. -/
def functionType (ty : Typing) (p : Path) (t : Tree) : TypeDesc :=
  let result := ((partsAt p t).find? (·.2.isKind .returns)).bind fun r => hintAt r.1 r.2
  .callable (result.bind fun a => ty.ofHint a.1 a.2) (some (Typing.requiredArity t))

/-- Reads a leaf: a name belongs to the scope around it. -/
def collectLeaf (l : Leaf) : Collect := fun p scope =>
  if l.kind = .name then modify fun b => { b with names := (p, scope) :: b.names } else pure ()

/-- Reads a node from how its children are read. -/
def collectNode (vocabulary : Vocabulary) (table : Table) (k : Kind) (ts : List (Tree × Collect)) : Collect :=
  fun p scope => do
    let self : Tree := .node k (ts.map (·.1))
    let parts := partsAt p self
    let inside (s : Path) : StateM Bindings Unit :=
      (Tree.locate p ts).forM fun c => c.2.2 c.1 s
    match k with
    | .module =>
      enterScope p none false
      inside p
    | .classDef =>
      bindInferred scope (self.definedName?.getD "") none
      enterScope p (some scope) true
      inside p
    | .funcDef =>
      let ty ← typingNow vocabulary table
      bindInferred scope (self.definedName?.getD "") (some (functionType ty p self))
      enterScope p (some scope) false
      bindParameters vocabulary table p self
      inside p
    | .lambda =>
      enterScope p (some scope) false
      bindParameters vocabulary table p self
      inside p
    -- bound before the value is read, while an assignment is bound after it
    | .annAssign =>
      match parts with
      | (_, target) :: (ap, a) :: _ =>
        match target.unparen.name?, hintAt ap a with
        | some n, some e =>
          let ty ← typingNow vocabulary table
          bindAnnotated scope n (ty.ofHint e.1 e.2)
        | _, _ => pure ()
      | _ => pure ()
      inside scope
    | .assign =>
      inside scope
      match parts.getLast? with
      | some (vp, v) =>
        let ty ← typingNow vocabulary table
        let d := ty.infer vp v
        (parts.dropLast.filter (!·.2.isMark "=")).forM fun t => bindTarget scope t.2 d
      | none => pure ()
    | .augAssign =>
      inside scope
      match parts.head? with
      | some (_, t) => bindTarget scope t none
      | none => pure ()
    | .walrus =>
      inside scope
      match parts with
      | [(_, t), _, (vp, v)] =>
        let ty ← typingNow vocabulary table
        bindTarget scope t (ty.infer vp v)
      | _ => pure ()
    | .forStmt =>
      let targets := (parts.takeWhile (!·.2.isMark "in")).filter fun c =>
        !c.2.isMark "async" && !c.2.isMark "for"
      targets.forM fun t => bindTarget scope t.2 none
      inside scope
    | .withItem =>
      ((parts.dropWhile (!·.2.isMark "as")).drop 1).forM fun t => bindTarget scope t.2 none
      inside scope
    | .handler =>
      -- only a handler of single exceptions binds its name
      if !parts.any (·.2.isMark "*") then
        (((parts.dropWhile (!·.2.isMark "as")).drop 1).take 1).forM fun t => bindTarget scope t.2 none
      inside scope
    | _ => inside scope

/-- Everything an inference may use about a module that has been read. -/
def Typing.ofModule (vocabulary : Vocabulary) (table : Table) (t : Tree) : Typing :=
  ⟨vocabulary, table, ((t.para collectLeaf (collectNode vocabulary table) [] []).run .empty).2⟩

end FluentShift.Types
