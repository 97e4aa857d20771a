import FluentShift.Source.Import

/-!
# FluentShift.Scope.Table - scopes, bindings and what a name means

A `Table` holds the scopes of a module in the order they were opened, the bindings made in them and the uses of names.

* A name is looked up from the scope of its use outwards; the scope of a class is seen only from the class body
  itself (and from the type parameters right inside it).
* `global` and `nonlocal` redirect a name of a function scope.
* A use refers to the bindings of its own scope that come before it, and to all bindings of an outer scope.
-/

namespace FluentShift.Scope

open FluentShift.Source

/-- A scope is named by its place in the table; the module is 0. -/
abbrev ScopeId := Nat

/-- The constructs that open a scope. -/
inductive ScopeKind where
  | module
  | function (name : Option String)
  | class (name : String)
  | comprehension
  | hint
  deriving DecidableEq, Repr

/-- Where a redirected name is bound. -/
inductive Redirect where
  | toModule
  | toParent
  deriving DecidableEq, Repr

/-- A scope. `label` qualifies the names bound in it, `count` numbers its bindings in reading order. -/
structure ScopeInfo where
  kind : ScopeKind
  parent : ScopeId
  label : String
  redirects : List (String × Redirect)
  count : Nat
  deriving Repr

/-- What binds a name. -/
inductive Origin where
  | imported (statement : ImportStatement)
  | defined
  deriving DecidableEq, Repr

/-- A binding of `name` in `scope`, the `index`th there. -/
structure Binding where
  name : String
  scope : ScopeId
  origin : Origin
  index : Nat
  deriving DecidableEq, Repr

/-- A use of a name in `scope` before the `index`th binding there.  `chain` lists the dotted names that start with
the used one, longest first, each with its node; uses inside a string have no nodes. -/
structure Use where
  name : String
  scope : ScopeId
  index : Nat
  node : Option Path
  chain : List (String × Option Path)
  deriving Repr

/-- What the reading of a module found. -/
structure Table where
  scopes : Array ScopeInfo
  bindings : List Binding
  uses : List Use
  places : List (Path × ScopeId)

namespace Table

/-- The table of a module that has not been read. -/
def empty : Table := ⟨#[⟨.module, 0, "", [], 0⟩], [], [], []⟩

/-- The scope with a number; the module if there is none. -/
def info (t : Table) (s : ScopeId) : ScopeInfo :=
  t.scopes[s]?.getD ⟨.module, 0, "", [], 0⟩

/-- The bindings of a name made in a scope itself. -/
def own (t : Table) (s : ScopeId) (name : String) : List Binding :=
  t.bindings.filter fun b => b.scope = s && b.name = name

/-- The bindings of a name that are seen from scope `origin` when the search has come to scope `s`; none when no scope
binds it. `fuel` bounds the way outwards. -/
def search (t : Table) (name : String) (origin : ScopeId) : Nat → ScopeId → List Binding
  | 0, _ => []
  | fuel + 1, s =>
    let i := t.info s
    let outward := if s = 0 then [] else search t name origin fuel i.parent
    let visible := match i.kind with
      | .class _ => origin = s || ((t.info origin).parent = s && (t.info origin).kind = .hint)
      | _ => true
    if !visible then outward
    else match i.redirects.lookup name with
      | some .toModule => t.own 0 name
      | some .toParent => outward
      | none =>
        match t.own s name with
        | [] => outward
        | bs => bs

/-- The bindings of a name seen from a scope. -/
def lookup (t : Table) (s : ScopeId) (name : String) : List Binding :=
  t.search name s (t.scopes.size + 1) s

end Table

/-! ### Names the language binds -/

/-- The names bound before a module starts. -/
def builtinNames : List String := [
  "ArithmeticError", "AssertionError", "AttributeError", "BaseException", "BaseExceptionGroup",
  "BlockingIOError", "BrokenPipeError", "BufferError", "BytesWarning", "ChildProcessError",
  "ConnectionAbortedError", "ConnectionError", "ConnectionRefusedError", "ConnectionResetError",
  "DeprecationWarning", "EOFError", "Ellipsis", "EncodingWarning", "EnvironmentError", "Exception",
  "ExceptionGroup", "False", "FileExistsError", "FileNotFoundError", "FloatingPointError", "FutureWarning",
  "GeneratorExit", "IOError", "ImportError", "ImportWarning", "IndentationError", "IndexError",
  "InterruptedError", "IsADirectoryError", "KeyError", "KeyboardInterrupt", "LookupError", "MemoryError",
  "ModuleNotFoundError", "NameError", "None", "NotADirectoryError", "NotImplemented", "NotImplementedError",
  "OSError", "OverflowError", "PendingDeprecationWarning", "PermissionError", "ProcessLookupError",
  "RecursionError", "ReferenceError", "ResourceWarning", "RuntimeError", "RuntimeWarning",
  "StopAsyncIteration", "StopIteration", "SyntaxError", "SyntaxWarning", "SystemError", "SystemExit",
  "TabError", "TimeoutError", "True", "TypeError", "UnboundLocalError", "UnicodeDecodeError",
  "UnicodeEncodeError", "UnicodeError", "UnicodeTranslateError", "UnicodeWarning", "UserWarning", "ValueError",
  "Warning", "ZeroDivisionError", "__build_class__", "__debug__", "__doc__", "__import__", "__loader__",
  "__name__", "__package__", "__spec__", "abs", "aiter", "all", "anext", "any", "ascii", "bin", "bool",
  "breakpoint", "bytearray", "bytes", "callable", "chr", "classmethod", "compile", "complex", "copyright",
  "credits", "delattr", "dict", "dir", "divmod", "enumerate", "eval", "exec", "exit", "filter", "float",
  "format", "frozenset", "getattr", "globals", "hasattr", "hash", "help", "hex", "id", "input", "int",
  "isinstance", "issubclass", "iter", "len", "license", "list", "locals", "map", "max", "memoryview", "min",
  "next", "object", "oct", "open", "ord", "pow", "print", "property", "quit", "range", "repr", "reversed",
  "round", "set", "setattr", "slice", "sorted", "staticmethod", "str", "sum", "super", "tuple", "type", "vars",
  "zip"]

namespace Table

/-- Whether a name means something in a scope. -/
def binds (t : Table) (s : ScopeId) (name : String) : Bool :=
  !(t.lookup s name).isEmpty || builtinNames.contains name

end Table

end FluentShift.Scope
