/-!
# FluentShift.Types.Descriptor - types of arguments and what they are for

A `TypeDesc` is the little that is known about the type of an expression.  A `Vocabulary` says which type names count
as floating point, as text and as callable, and so gives every argument its `Tag`.
-/

namespace FluentShift.Types

/-- The sort of a type. -/
inductive TypeKind where
  | primitive
  | nominal
  | callable
  | unknown
  deriving DecidableEq, Repr, Inhabited

/-- All sorts. -/
def TypeKind.all : List TypeKind := [primitive, nominal, callable, unknown]

/-- The word for a sort. -/
def TypeKind.label : TypeKind → String
  | primitive => "primitive"
  | nominal => "class"
  | callable => "callable"
  | unknown => "unknown"

/-- The sort with a word. -/
def TypeKind.ofLabel? (label : String) : Option TypeKind := all.find? (·.label = label)

/-- A type: its name, its sort, how many arguments a callable requires and what it returns. -/
inductive TypeDesc where
  | plain (name : String) (kind : TypeKind) (arity : Option Int)
  | returning (name : String) (kind : TypeKind) (arity : Option Int) (result : TypeDesc)
  deriving DecidableEq, Repr, Inhabited

namespace TypeDesc

/-- The name of a type. -/
def name : TypeDesc → String
  | .plain n _ _ | .returning n _ _ _ => n

/-- The sort of a type. -/
def kind : TypeDesc → TypeKind
  | .plain _ k _ | .returning _ k _ _ => k

/-- The number of arguments a callable requires, if known. -/
def arity : TypeDesc → Option Int
  | .plain _ _ a | .returning _ _ a _ => a

/-- What a callable returns, if known. -/
def result? : TypeDesc → Option TypeDesc
  | .plain .. => none
  | .returning _ _ _ r => some r

/-- Puts a type together. -/
def make (name : String) (kind : TypeKind) (result : Option TypeDesc) (arity : Option Int) : TypeDesc :=
  match result with
  | none => .plain name kind arity
  | some r => .returning name kind arity r

/-- A type of the language itself. -/
def primitive (name : String) : TypeDesc := .plain name .primitive none

/-- A type known by its name only. -/
def nominal (name : String) : TypeDesc := .plain name .nominal none

/-- A callable. -/
def callable (result : Option TypeDesc) (arity : Option Int) : TypeDesc := make "Callable" .callable result arity

/-- The type of text. -/
def str : TypeDesc := primitive "str"

/-- The type of byte strings. -/
def bytes : TypeDesc := primitive "bytes"

/-- The type of whole numbers. -/
def int : TypeDesc := primitive "int"

/-- The type of floating point numbers. -/
def float : TypeDesc := primitive "float"

/-- The type of complex numbers. -/
def complex : TypeDesc := primitive "complex"

/-- The type of truth values. -/
def bool : TypeDesc := primitive "bool"

/-- The types of the language that an annotation can name. -/
def primitives : List TypeDesc := [str, bytes, int, float, complex, bool]

end TypeDesc

/-! ### Vocabularies -/

/-- Which type names count as floating point, as text and as callable. -/
structure Vocabulary where
  floats : List String
  strings : List String
  callables : List String
  deriving DecidableEq, Repr, Inhabited

namespace Vocabulary

/-- The vocabulary used when nothing is configured. -/
def standard : Vocabulary where
  floats := ["float", "builtins.float", "numpy.float16", "numpy.float32", "numpy.float64", "numpy.double",
    "numpy.single", "numpy.longdouble"]
  strings := ["str", "builtins.str"]
  callables := ["Callable", "typing.Callable", "collections.abc.Callable"]

/-- A vocabulary with more names for floating point and for text. -/
def extended (v : Vocabulary) (floats strings : List String) : Vocabulary :=
  { v with floats := v.floats ++ floats, strings := v.strings ++ strings }

/-- Whether a type counts as floating point. -/
def isFloat (v : Vocabulary) : Option TypeDesc → Bool
  | some d => d.kind ≠ .callable && v.floats.contains d.name
  | none => false

/-- Whether a type counts as text. -/
def isString (v : Vocabulary) : Option TypeDesc → Bool
  | some d => d.kind ≠ .callable && v.strings.contains d.name
  | none => false

/-- Whether a type is a callable that requires nothing and returns text. -/
def isStringSupplier (v : Vocabulary) : Option TypeDesc → Bool
  | some d => d.kind = .callable && d.arity = some 0 && v.isString d.result?
  | none => false

end Vocabulary

/-! ### Tags -/

/-- What the type of an argument is for a rewrite. -/
inductive Tag where
  | string
  | stringSupplier
  | floatingPoint
  | other
  deriving DecidableEq, Repr, Inhabited

/-- All tags. -/
def Tag.all : List Tag := [string, stringSupplier, floatingPoint, other]

/-- The word for a tag. -/
def Tag.label : Tag → String
  | string => "string"
  | stringSupplier => "string_supplier"
  | floatingPoint => "floating_point"
  | other => "other"

/-- The tag with a word. -/
def Tag.ofLabel? (label : String) : Option Tag := all.find? (·.label = label)

/-- The tag of a type; an unknown type is `other`. -/
def Vocabulary.tag (v : Vocabulary) (d : Option TypeDesc) : Tag :=
  if v.isFloat d then .floatingPoint
  else if v.isString d then .string
  else if v.isStringSupplier d then .stringSupplier
  else .other

end FluentShift.Types
