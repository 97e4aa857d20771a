import FluentShift.Types.Bindings
import FluentShift.Source.View
import FluentShift.Source.Literal
import FluentShift.Scope.Names

/-!
# FluentShift.Types.Infer - the type of an expression

`Typing.infer` reads the type of an expression from literals, operators, calls of known functions and what is known
about names; `Typing.ofHint` reads the type that an annotation names.
-/

namespace FluentShift.Types

open FluentShift.Source FluentShift.Scope

/-- What an inference may use. -/
structure Typing where
  vocabulary : Vocabulary
  table : Table
  bindings : Bindings

/-! ### Names -/

/-- The functions of the language that return text. -/
def stringProducers : List String := ["str", "repr", "format", "ascii"]

/-- The methods of text that return text. -/
def stringMethods : List String :=
  ["capitalize", "casefold", "center", "expandtabs", "format", "format_map", "join", "ljust", "lower", "lstrip",
   "removeprefix", "removesuffix", "replace", "rjust", "rstrip", "strip", "swapcase", "title", "translate", "upper",
   "zfill"]

/-- The types whose operators give numbers. -/
def numericNames : List String := ["int", "float", "bool"]

/-- A qualified name without the mark of the language's own names. -/
def stripBuiltins (name : String) : String :=
  if name.startsWith "builtins." then String.ofList (name.toList.drop "builtins.".length) else name

/-- The first of some names in the order of their characters. -/
def leastName (names : List String) : Option String :=
  match names with
  | [] => none
  | n :: ns => some (ns.foldl (fun a b => if b < a then b else a) n)

/-- Whether names are looked up by where they come from: only plain and dotted names are. -/
def isNameLike (e : Tree) : Bool :=
  e.name?.isSome || e.isKind .attribute

/-- The path of the expression inside any parentheses. -/
def unparenPath (e : Tree) (p : Path) : Path :=
  let leaf : Leaf → Path → Path := fun _ p => p
  let node : Kind → List (Tree × (Path → Path)) → Path → Path := fun k ts p =>
    match k, (Tree.locate p ts).filter (fun c => !c.2.1.isTrivia) with
    | .paren, [_, e, _] => e.2.2 e.1
    | _, _ => p
  Tree.para leaf node e p

namespace Typing

/-- The names that an expression at a path goes by: the qualified ones, else its spelling. -/
def namesFor (ty : Typing) (p : Path) (e : Tree) : List String :=
  let inner := e.unparen
  let found := if isNameLike inner then (ty.table.qualifiedAt (unparenPath e p) inner).map stripBuiltins else []
  if found.isEmpty then
    match fullName? inner with
    | some "" | none => []
    | some n => [n]
  else found.eraseDups

/-! ### Operators and calls -/

/-- The type of `left op right`. -/
def binary (ty : Typing) (op : String) (left right : Option TypeDesc) : Option TypeDesc :=
  if left = some .str && op = "%" then some .str
  else if left = some .str && right = some .str && op = "+" then some .str
  else match left, right with
    | some l, some r =>
      if numericNames.contains l.name && numericNames.contains r.name then
        if op = "/" || l = .float || r = .float then some .float else some .int
      else if ty.vocabulary.isFloat left && numericNames.contains r.name then some l
      else if ty.vocabulary.isFloat right && numericNames.contains l.name then some r
      else none
    | _, _ => none

/-- The type of a call of `callee`; `receiver` is the type of what a method is called on. -/
def called (ty : Typing) (p : Path) (callee : Tree) (receiver : Option TypeDesc) : Option TypeDesc :=
  let inner := callee.unparen
  let names := ty.namesFor p callee
  -- names that are trusted decide first, then what the module says that the function returns
  if names.any stringProducers.contains then some .str
  else if names.contains "float" then some .float
  else if names.contains "int" then some .int
  else match leastName (names.filter ty.vocabulary.floats.contains) with
    | some n => some (.nominal n)
    | none =>
      match inner.name? with
      | some n =>
        match ty.bindings.lookup (unparenPath callee p) n with
        | some d => if d.kind = .callable then d.result? else none
        | none => none
      | none =>
        match inner.isKind .attribute, inner.parts.getLast?.bind Tree.name? with
        | true, some m => if stringMethods.contains m && receiver = some .str then some .str else none
        | _, _ => none

/-- How many arguments a function or lambda requires. -/
def requiredArity (t : Tree) : Int :=
  ((t.parameters.filter fun q => q.default.isNone).length : Nat)

/-! ### Expressions -/

/-- The type of a leaf. -/
def inferLeaf (ty : Typing) (l : Leaf) (p : Path) : Option TypeDesc :=
  match l.kind with
  | .string => some (if (stringPrefix l.text).contains 'b' then .bytes else .str)
  | .real => some .float
  | .integer => some .int
  | .imaginary => some .complex
  | .name =>
    if l.text = "True" || l.text = "False" then some .bool else ty.bindings.lookup p l.text
  | _ => none

/-- An expression and its type, or the type of what a method is called on. -/
abbrev Inferred := Path → Option TypeDesc × Option TypeDesc

/-- The type of a node from the types of its children, and, for an attribute, the type of what it belongs to. -/
def inferNode (ty : Typing) (k : Kind) (ts : List (Tree × Inferred)) : Inferred := fun p =>
  let cs := (Tree.locate p ts).filter fun c => !c.2.1.isTrivia
  let typeOf (c : Path × Tree × Inferred) : Option TypeDesc := (c.2.2 c.1).1
  let self : Tree := .node k (ts.map (·.1))
  match k, cs with
  | .paren, [_, e, _] => e.2.2 e.1
  -- an attribute has no type itself, but a call of it as a method asks what it belongs to
  | .attribute, v :: _ => (none, typeOf v)
  | .concatenation, _ => (some .str, none)
  | .template, o :: _ => (if (stringPrefix o.2.1.text).contains 't' then none else some .str, none)
  | .unaryOp, [op, e] => (if op.2.1.isMark "not" then some .bool else typeOf e, none)
  | .binaryOp, [l, op, r] => (ty.binary op.2.1.text (typeOf l) (typeOf r), none)
  | .lambda, _ => (some (.callable ((cs.getLast?.map typeOf).getD none) (some (requiredArity self))), none)
  | .call, f :: _ => (ty.called f.1 f.2.1 (f.2.2 f.1).2, none)
  | _, _ => (none, none)

/-- The type of an expression at a path. -/
def infer (ty : Typing) (p : Path) (e : Tree) : Option TypeDesc :=
  (Tree.para (fun l p => (ty.inferLeaf l p, none)) ty.inferNode e p).1

/-! ### Annotations -/

/-- The type that an annotation names: a callable with its arity and result, or a type by its name. -/
def ofHint (ty : Typing) (p : Path) (e : Tree) : Option TypeDesc :=
  let leaf : Leaf → Path → Option TypeDesc := fun l p => byName p (.leaf l)
  let node : Kind → List (Tree × (Path → Option TypeDesc)) → Path → Option TypeDesc := fun k ts p =>
    let cs := (Tree.locate p ts).filter fun c => !c.2.1.isTrivia
    match k, cs with
    | .paren, [_, e, _] => e.2.2 e.1
    | .attribute, _ => byName p (.node k (ts.map (·.1)))
    | .subscript, v :: _ =>
      if (ty.namesFor v.1 v.2.1).any ty.vocabulary.callables.contains then
        let items := (cs.drop 1).filter fun c => !c.2.1.isMark "[" && !c.2.1.isMark "]" && !c.2.1.isMark ","
          && !c.2.1.isKind .slice
        match items with
        | [params, result] =>
          let list := params.2.1.unparen
          -- an ellipsis or a name in the place of the list leaves the number open
          let arity : Option Int :=
            if list.isKind .list && !list.hasDirect .compFor then some (list.elements.length : Nat) else none
          some (.callable (result.2.2 result.1) arity)
        | _ => some (.callable none none)
      else none
    | _, _ => none
  Tree.para leaf node e p
where
  /-- The type that a plain or dotted name stands for. -/
  byName (p : Path) (e : Tree) : Option TypeDesc :=
    if !isNameLike e then none
    else
      let names := ty.namesFor p e
      match leastName (names.filter fun n => TypeDesc.primitives.any (·.name = n)) with
      | some n => some (.primitive n)
      | none =>
        match leastName (names.filter ty.vocabulary.floats.contains) with
        | some n => some (.nominal n)
        | none =>
          match leastName (names.filter ty.vocabulary.strings.contains) with
          | some n => some (.nominal n)
          | none => (leastName names).map .nominal

end Typing

end FluentShift.Types
