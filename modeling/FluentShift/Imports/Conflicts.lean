import FluentShift.Scope.Walk
import FluentShift.Mapping

/-!
# FluentShift.Imports.Conflicts - fluent names that mean something else

A fluent name that a module already binds, in any scope and to anything but the fluent function itself, cannot be
imported without changing the meaning of the module.
-/

namespace FluentShift.Imports

open FluentShift.Source FluentShift.Scope

/-- Whether a binding of `symbol` is the fluent import of it. -/
def isFluentImport (m : Mapping) (b : Binding) (symbol : String) : Bool :=
  match b.origin with
  | .defined => false
  | .imported i =>
    i.source.isSome && i.moduleName = m.fluentType &&
      i.list.any fun n => n.name = symbol && (n.alias_ = none || n.alias_ = some symbol)

/-- What a binding is, in a few words. -/
def describeBinding (b : Binding) : String :=
  match b.origin with
  | .defined => "assigned in this file"
  | .imported i => "imported from " ++ if i.moduleName = "" then "a module" else i.moduleName

/-- The first binding of a symbol that is not the fluent import of it, the outermost scope first. -/
def conflictingBinding (m : Mapping) (t : Table) (symbol : String) : Option Binding :=
  (List.range t.scopes.size).findSome? fun s =>
    (t.own s symbol).find? fun b => !isFluentImport m b symbol

/-- The symbols that a module binds to something else, with what they are bound to. -/
def conflicts (m : Mapping) (t : Table) (symbols : List String) : List (String × String) :=
  symbols.eraseDups.filterMap fun s => (conflictingBinding m t s).map fun b => (s, describeBinding b)

end FluentShift.Imports
