import FluentShift.Source.Tree

/-!
# FluentShift.Source.Shape - conditions on trees that a grammar leaves open

The grammar reads every assignment target, call and parameter list as what it generally looks like; these predicates
then refuse the ones the language has no meaning for: `f() = 1`, `{a, b: c}`, `def f(**k, a)`.
-/

namespace FluentShift.Source.Tree

/-- The expressions of a bracketed node or a tuple: its parts other than brackets and commas. -/
def elements (t : Tree) : List Tree :=
  t.parts.filter fun c => match c with
    | .leaf l => l.kind ≠ .mark || l.text = "..."
    | .node _ _ => true

/-- Whether a tree is a name that can be bound. -/
def isBindableName (t : Tree) : Bool :=
  match t.name? with
  | some s => !(["True", "False", "None"].contains s)
  | none => false

/-- Whether a tree is a name, an attribute or an item, in parentheses or not. -/
def isSingleTarget (t : Tree) : Bool :=
  let u := t.unparen
  u.isBindableName || u.isKind .attribute || u.isKind .subscript

/-- Whether a tree can be assigned to: names, attributes and items, and lists and tuples of them. -/
def isTarget : Tree → Bool :=
  let leaf : Leaf → Bool := fun l => (Tree.leaf l).isBindableName
  let node : Kind → List (Tree × Bool) → Bool := fun k ts =>
    let inner := ts.filter fun c => match c.1 with
      | .leaf l => !l.kind.isTrivia && l.kind ≠ .mark
      | .node _ _ => true
    match k with
    | .attribute | .subscript => true
    | .paren => inner.all (fun c => c.2 && !c.1.isKind .starred)
    | .tuple => inner.all (·.2)
    | .list => inner.all (fun c => c.2 && !c.1.isKind .compFor)
    | .starred => inner.all (·.2) && inner.all (fun c => !c.1.isKind .starred)
    | _ => false
  Tree.para leaf node

/-- Whether a tree can be deleted: as `isTarget`, without stars. -/
def isDeletable (t : Tree) : Bool :=
  t.isTarget && !t.hasKind .starred

/-- Whether an annotation may name the target `t`: no parentheses around it. -/
def isAnnotatable (t : Tree) : Bool :=
  t.isBindableName || t.isKind .attribute || t.isKind .subscript

/-- Whether the parts of an assignment, an annotated one, an augmented one or a mere expression fit together. -/
def isAssignmentLike (t : Tree) : Bool :=
  match t with
  | .node .assign _ => (t.elements.dropLast).all isTarget
  | .node .annAssign _ => (t.elements.head?.map isAnnotatable).getD false
  | .node .augAssign _ => (t.elements.head?.map isSingleTarget).getD false
  | _ => true

/-- Whether a parenthesised expression is more than a lone star. -/
def isParenBody (t : Tree) : Bool :=
  match t.elements with
  | [e] => !e.isKind .starred && !(e.isKind .generator && (e.elements.head?.map (·.isKind .starred)).getD false)
  | _ => true

/-- Whether a list is a plain one or a comprehension of one element. -/
def isListBody (t : Tree) : Bool :=
  match t.elements with
  | e :: c :: _ => !(c.isKind .compFor && e.isKind .starred)
  | _ => true

/-- Whether the elements in braces are all items of a dictionary, or none is; a comprehension takes no stars. -/
def isBraceBody (t : Tree) : Bool :=
  let es := t.elements
  let isItem := fun (e : Tree) => e.isKind .dictItem || e.isKind .doubleStarred
  let isStar := fun (e : Tree) => e.isKind .doubleStarred || e.isKind .starred
  let elems := es.filter (!·.isKind .compFor)
  (elems.all isItem || elems.all (!isItem ·)) && (elems.length = es.length || elems.all (!isStar ·))
    && elems.all (fun e => !(e.isKind .dictItem && (e.elements.head?.map (·.isKind .walrus)).getD false))

/-- Whether a generator that is an argument without parentheses is the only argument, with nothing after it. -/
def isArgumentList (t : Tree) : Bool :=
  let args := t.elements.filter (·.isKind .argument)
  let bare := args.any fun a => a.elements.any (·.isKind .generator)
  !bare || (args.length = 1 && t.isKind .call && !t.parts.any (·.isMark ","))

/-- Whether parameters stand in an order that has a meaning: the slash after at least one plain parameter, at most
one star and something after a bare one, a double star last, and before the star no parameter without a default after
one that has it. -/
def isParameterList (t : Tree) : Bool :=
  let items := t.parts.filter (!·.isMark ",")
  let head := items.takeWhile fun p => !(p.isMark "*" || p.isKind .starParam || p.isKind .dictParam)
  let tail := items.drop head.length
  let positional := head.filter (·.isKind .param)
  let hasDefault := fun (p : Tree) => p.parts.any (·.isMark "=")
  let slashes := head.filter (·.isMark "/")
  let slashOk := slashes.length = 0 || (slashes.length = 1 && !((head.head?.map (·.isMark "/")).getD false))
  let tailOk := match tail with
    | [] => true
    | s :: rest =>
      let rest' := if s.isKind .dictParam then s :: rest else rest
      let named := rest'.takeWhile (·.isKind .param)
      let last := rest'.drop named.length
      (last.length = 0 || (last.length = 1 && last.all (·.isKind .dictParam)))
        && !(s.isMark "*" && named.length = 0)
  slashOk && tailOk && (positional.dropWhile (!hasDefault ·)).all hasDefault

end FluentShift.Source.Tree
