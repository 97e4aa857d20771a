import FluentShift.Source.Parse

/-!
# FluentShift.Source.View - calls, parameters and targets as data

Readings of the nodes that analyses look into.  Trivia and parentheses never matter to a reading.
-/

namespace FluentShift.Source

/-- How an argument is passed. -/
inductive Passing where
  | plain
  | keyword (name : String)
  | star
  | doubleStar
  deriving DecidableEq, Repr, Inhabited

/-- An argument of a call. -/
structure Argument where
  passing : Passing
  value : Tree
  deriving Inhabited, Repr

/-- A call: what is called and with which arguments. -/
structure Call where
  callee : Tree
  arguments : List Argument
  deriving Inhabited, Repr

/-- One parameter of a function or a lambda. -/
structure Parameter where
  name : String
  hint : Option Tree
  default : Option Tree
  deriving Inhabited, Repr

namespace Tree

/-- Reads an argument from its parts: a star, or a name and an equals sign, may stand before its value. -/
def argumentOf? : List Tree → Option Argument
  | [v] => some ⟨.plain, v⟩
  | [s, v] => if s.isMark "*" then some ⟨.star, v⟩ else if s.isMark "**" then some ⟨.doubleStar, v⟩ else none
  | [n, e, v] => if e.isMark "=" then n.name?.map (⟨.keyword ·, v⟩) else none
  | _ => none

/-- Reads an argument. -/
def argument? (t : Tree) : Option Argument :=
  if t.isKind .argument then argumentOf? t.parts else none

/-- Reads a call. -/
def call? (t : Tree) : Option Call :=
  match t.isKind .call, t.parts with
  | true, callee :: rest => some ⟨callee, rest.filterMap argument?⟩
  | _, _ => none

/-- The arguments of a call; none for another tree. -/
def arguments (t : Tree) : List Argument :=
  (t.call?.map (·.arguments)).getD []

/-- Reads an argument at a path, with the path of its value. -/
def argumentAt? (p : Path) (t : Tree) : Option (Path × Argument) :=
  match t.argument?, ((locate p t.children).filter (!·.2.isTrivia)).getLast? with
  | some a, some v => some (v.1, a)
  | _, _ => none

/-- The arguments of a call at a path, with the paths of their values. -/
def argumentsAt (p : Path) (call : Tree) : List (Path × Argument) :=
  (((locate p call.children).filter (!·.2.isTrivia)).drop 1).filterMap fun c => argumentAt? c.1 c.2

/-- The expression of an annotation or of a return annotation. -/
def annotated? (t : Tree) : Option Tree :=
  (t.parts.drop 1).head?

/-- Reads a plain parameter. -/
def parameter? (t : Tree) : Option Parameter :=
  if t.isKind .param then do
    let name ← (t.parts.head?).bind name?
    let hint := ((t.parts.find? (·.isKind .hint)).bind annotated?)
    let default := ((t.parts.dropWhile (!·.isMark "=")).drop 1).head?
    return ⟨name, hint, default⟩
  else none

/-- The parameter list of a function or a lambda. -/
def paramsNode? (t : Tree) : Option Tree :=
  t.parts.find? (·.isKind .params)

/-- The parameters that are not starred. -/
def parameters (t : Tree) : List Parameter :=
  ((t.paramsNode?.map (·.parts)).getD []).filterMap parameter?

/-- The names of the starred parameters. -/
def starredParameters (t : Tree) : List String :=
  (((t.paramsNode?.map (·.parts)).getD []).filter fun p => p.isKind .starParam || p.isKind .dictParam).filterMap
    fun p => (p.parts.find? (·.name?.isSome)).bind name?

/-- The first name among the parts: that of a function, a class or a type alias. -/
def definedName? (t : Tree) : Option String :=
  (t.parts.find? (·.name?.isSome)).bind name?

end Tree

end FluentShift.Source
