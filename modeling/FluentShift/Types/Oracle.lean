import FluentShift.Types.Collect

/-!
# FluentShift.Types.Oracle - who answers for the types of arguments

The rewriter asks an oracle.  The local one reads the module; the others know nothing, cannot be built, answer from
a list of names, or are supplied as a function of the module.
-/

namespace FluentShift.Types

open FluentShift.Source FluentShift.Scope

/-- A source of types. -/
inductive Oracle where
  /-- Reads the types from the module itself. -/
  | local_
  /-- Knows nothing. -/
  | unknown
  /-- Cannot be built for any module. -/
  | broken (reason : String)
  /-- Answers for plain names only, and fails on some of them. -/
  | listed (types : List (String × TypeDesc)) (failing : List String)
  /-- Built for a module, if that works, and answers or fails by the place and the text of an expression. -/
  | supplied (build : Vocabulary → Table → Tree → Except String (Path → Tree → Except String (Option TypeDesc)))

/-- An oracle ready for one module. -/
inductive Answerer where
  | silent
  | typing (ty : Typing)
  | listed (types : List (String × TypeDesc)) (failing : List String)
  | supplied (answer : Path → Tree → Except String (Option TypeDesc))

/-- Why an oracle could not be built for a module, if it could not. -/
def Oracle.fault? (o : Oracle) (vocabulary : Vocabulary) (table : Table) (t : Tree) : Option String :=
  match o with
  | .broken reason => some reason
  | .supplied build =>
    match build vocabulary table t with
    | .ok _ => none
    | .error reason => some reason
  | _ => none

/-- Prepares an oracle for a module; a broken one becomes silent. -/
def Oracle.prepare (o : Oracle) (vocabulary : Vocabulary) (table : Table) (t : Tree) : Answerer :=
  match o with
  | .local_ => .typing (Typing.ofModule vocabulary table t)
  | .unknown | .broken _ => .silent
  | .listed types failing => .listed types failing
  | .supplied build =>
    match build vocabulary table t with
    | .ok answer => .supplied answer
    | .error _ => .silent

/-- The type of an expression; a failure to answer counts as no answer. -/
def Answerer.typeOf (a : Answerer) (p : Path) (e : Tree) : Option TypeDesc :=
  match a with
  | .silent => none
  | .typing ty => ty.infer p e
  | .listed types failing =>
    match e.unparen.name? with
    | some n => if failing.contains n then none else types.lookup n
    | none => none
  | .supplied answer =>
    match answer p e with
    | .ok d => d
    | .error _ => none

end FluentShift.Types
