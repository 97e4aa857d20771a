import FluentShift.Rewrite.Classification
import FluentShift.Source.View

/-!
# FluentShift.Rewrite.Emission - the fluent chain for a classified call

A chain is made from a template such as `entry({actual}).equal({expected})`: names take the places of the slots, the
text is read as an expression, and the arguments take the places of the names, each with its own text unchanged.  The
names that stand for slots are reserved: a template or an argument that has one of its own is refused.
-/

namespace FluentShift.Rewrite

open FluentShift.Source

/-- Whether an argument has a comment between a star and its value. -/
def hasStarComment (a : Tree) : Bool :=
  match a.argument?.map Argument.passing with
  | some .star | some .doubleStar => a.children.any Tree.isComment
  | _ => false

/-- Whether a call has a comment outside its arguments: one that stands right in the call, or between a star and the
argument it belongs to. -/
def hasArgumentComments (call : Tree) : Bool :=
  call.children.any Tree.isComment || (call.children.filter (·.isKind .argument)).any hasStarComment

/-- Whether every argument of a call is passed by position. -/
def hasPlainArguments (call : Tree) : Bool :=
  match call.call? with
  | some c => c.arguments.all (·.passing = .plain)
  | none => false

/-- The template of a chain; `slot` writes the place of an argument. -/
def templateWith (m : Mapping) (c : Classification) (slot : Slot → String) : String :=
  let start := m.entryPoint ++ "(" ++ slot .actual ++ ")"
  let message :=
    if c.shape.hasMessage then
      "." ++ (if c.style = some .labelled then m.labelledMethod else m.deferredMethod) ++ "(" ++ slot .message ++ ")"
    else ""
  let comparison :=
    if c.shape.hasTolerance then
      "." ++ m.toleranceMethod ++ "(" ++ slot .expected ++ ", " ++ m.toleranceWrapper ++ "(" ++ slot .delta ++ "))"
    else "." ++ m.equalityMethod ++ "(" ++ slot .expected ++ ")"
  start ++ message ++ comparison

/-- A slot as it is shown. -/
def slotMark (s : Slot) : String := "\x7b" ++ s.label ++ "\x7d"

/-- The template as it is shown, with the slots in braces. -/
def template (m : Mapping) (c : Classification) : String :=
  templateWith m c slotMark

/-- The characters that the names of slots start and end with; no template may have them. -/
def reservedMarks : List String := ["__LIBCST_MANGLED_NAME_", "_EMAN_DELGNAM_TSCBIL__"]

/-- The name that stands for a slot while a template is read. -/
def slotName (s : Slot) : String := "__LIBCST_MANGLED_NAME_" ++ s.label ++ "_EMAN_DELGNAM_TSCBIL__"

/-- Whether some place of a text starts with `mark`. -/
def hasMark (mark : List Char) : List Char → Bool
  | [] => mark.isEmpty
  | c :: cs => mark.isPrefixOf (c :: cs) || hasMark mark cs

/-- Puts names in the places of the slots of a template; `skip` characters belong to a slot that is replaced. -/
def placeNames (slots : List Slot) : (skip : Nat) → List Char → List Char
  | _, [] => []
  | skip + 1, _ :: cs => placeNames slots skip cs
  | 0, c :: cs =>
    match slots.find? fun s => (slotMark s).toList.isPrefixOf (c :: cs) with
    | some s => (slotName s).toList ++ placeNames slots ((slotMark s).length - 1) cs
    | none => c :: placeNames slots 0 cs

/-- The text that is read as the template of a chain. -/
def templateText (m : Mapping) (c : Classification) : String :=
  String.ofList (placeNames (c.slots.map (·.1)) 0 (template m c).toList)

/-- The template of a chain as an expression, or why there is none. -/
def readTemplate (m : Mapping) (c : Classification) : Except Failure Tree :=
  if reservedMarks.any fun r => hasMark r.toList (template m c).toList then
    .error (.mishap .general "Cannot parse a template containing reserved strings")
  else
    match parseExpression? (templateText m c) with
    | none => .error (.source .template "")
    | some t => .ok t

/-- Puts trees in the places of names; parentheses right around such a name go with it. -/
def substitute (values : List (String × Tree)) (t : Tree) : Tree :=
  let valueOf (t : Tree) : Option Tree := t.unparen.name?.bind fun n => values.lookup n
  let leaf : Leaf → Tree := fun l => ((Tree.leaf l).name?.bind fun n => values.lookup n).getD (.leaf l)
  let node : Kind → List (Tree × Tree) → Tree := fun k ts =>
    match k, valueOf (.node k (ts.map (·.1))) with
    | .paren, some v => v
    | _, _ => .node k (ts.map (·.2))
  Tree.para leaf node t

/-- The first slot whose name is left in a chain. -/
def leftSlot? (slots : List Slot) (chain : Tree) : Option Slot :=
  chain.leaves.findSome? fun l => slots.find? fun s => l.kind = .name && l.text = slotName s

/-- The arguments of a call by the names of their slots. -/
def slotValues (c : Classification) (arguments : List Argument) : Except Failure (List (String × Tree)) :=
  c.slots.mapM fun s => do
    let a ← ArgumentIndex.pick s.2 arguments
    return (slotName s.1, a.value)

/-- A chain, if no slot is left in it and it is a call. -/
def acceptChain (m : Mapping) (c : Classification) (chain : Tree) : Except Failure Tree :=
  match leftSlot? (c.slots.map (·.1)) chain with
  | some s => throw (.mishap .general ("Template variable \"" ++ s.label ++ "\" was not replaced properly"))
  | none =>
    if chain.isKind .call then return chain
    else throw (.transformation ("Template did not produce a call: " ++ template m c) none (some "Call"))

/-- The template of a chain with the arguments of a call in it. -/
def fillTemplate (m : Mapping) (c : Classification) (arguments : List Argument) : Except Failure Tree := do
  let values ← slotValues c arguments
  let t ← readTemplate m c
  acceptChain m c (substitute values t).unparen

/-- The chain for a call, or why it cannot be written. -/
def emit (m : Mapping) (c : Classification) (call : Tree) : Except Failure Tree :=
  if call.arguments.length ≠ c.shape.arity then
    throw (.transformation (c.shape.label ++ " expects " ++ toString c.shape.arity ++ " arguments, got " ++
      toString call.arguments.length) (some c.shape.label) (some "Call"))
  else if hasArgumentComments call then
    throw (.transformation "comments between the arguments would be lost" (some c.shape.label) (some "Call"))
  else fillTemplate m c call.arguments

end FluentShift.Rewrite
