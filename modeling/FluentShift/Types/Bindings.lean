import FluentShift.Types.Descriptor
import FluentShift.Source.Tree

/-!
# FluentShift.Types.Bindings - what is known about the names of a module

Two tables per scope, one for annotations and one for inferred types.  A name bound again with another type is no
longer known: the entry stays, and it is empty.  So the tables do not depend on the order of the bindings.
-/

namespace FluentShift.Types

open FluentShift.Source

/-- Which of the two tables a binding goes to. -/
inductive Evidence where
  | annotated
  | inferred
  deriving DecidableEq, Repr

/-- What a binding is about: the node that makes the scope, the name and the table. -/
structure Key where
  scope : Path
  name : String
  evidence : Evidence
  deriving DecidableEq, Repr

/-- A scope: its node, the scope around it and whether it is a class. -/
structure TypeScope where
  node : Path
  parent : Option Path
  isClass : Bool
  deriving DecidableEq, Repr

/-- The entries of the tables; an entry without a type is known to be unknown. -/
abbrev Entries := List (Key × Option TypeDesc)

/-- Records a binding. -/
def Entries.bind (es : Entries) (k : Key) (d : Option TypeDesc) : Entries :=
  match es.lookup k with
  | some old => (k, if old = d then d else none) :: es.filter (·.1 ≠ k)
  | none => (k, d) :: es

/-- The tables, the scopes and the scope of every name read so far. -/
structure Bindings where
  entries : Entries
  scopes : List TypeScope
  names : List (Path × Path)

namespace Bindings

/-- Nothing is known. -/
def empty : Bindings := ⟨[], [], []⟩

/-- Records a binding. -/
def bind (b : Bindings) (k : Key) (d : Option TypeDesc) : Bindings :=
  { b with entries := b.entries.bind k d }

/-- The entry of a name seen from a scope: the annotated one before the inferred one, the nearest scope first; a class
is passed over unless the search starts in it. `fuel` bounds the way outwards. -/
def search (b : Bindings) (name : String) : Nat → Bool → Path → Option TypeDesc
  | 0, _, _ => none
  | fuel + 1, first, scope =>
    match b.scopes.find? (·.node = scope) with
    | none => none
    | some s =>
      let here := if first || !s.isClass then
          match b.entries.lookup ⟨scope, name, .annotated⟩ with
          | some d => some d
          | none => b.entries.lookup ⟨scope, name, .inferred⟩
        else none
      match here with
      | some d => d
      | none =>
        match s.parent with
        | some p => search b name fuel false p
        | none => none

/-- What is known about the name at a node. -/
def lookup (b : Bindings) (node : Path) (name : String) : Option TypeDesc :=
  match b.names.lookup node with
  | none => none
  | some scope => b.search name (b.scopes.length + 1) true scope

end Bindings

end FluentShift.Types
