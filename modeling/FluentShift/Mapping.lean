import FluentShift.Value
import FluentShift.Text.Split

/-!
# FluentShift.Mapping - from the legacy function to the fluent chain

A `Mapping` names the legacy function, the fluent functions and methods that replace it, and the places of the message
and the tolerance in a call with four arguments.
-/

namespace FluentShift

/-- The place of an argument as configured: a number, counted from the end if it is negative, or something that counts
nothing. -/
inductive ArgumentIndex where
  | at_ (n : Int)
  | unusable
  deriving DecidableEq, Repr, Inhabited

/-- The names of one migration. -/
structure Mapping where
  legacyType : String
  legacyMethod : String
  fluentType : String
  entryPoint : String
  equalityMethod : String
  labelledMethod : String
  deferredMethod : String
  toleranceMethod : String
  toleranceWrapper : String
  messageIndex : ArgumentIndex
  deltaIndex : ArgumentIndex
  deriving DecidableEq, Repr, Inhabited

namespace Mapping

/-- The mapping used when nothing is configured. -/
def standard : Mapping where
  legacyType := "junit.Assertions"
  legacyMethod := "assertEquals"
  fluentType := "assertj.Assertions"
  entryPoint := "assertThat"
  equalityMethod := "isEqualTo"
  labelledMethod := "describedAs"
  deferredMethod := "withFailureMessage"
  toleranceMethod := "isCloseTo"
  toleranceWrapper := "within"
  messageIndex := .at_ 2
  deltaIndex := .at_ 3

/-- The part of a dotted name before its last dot, and the part after it; without a dot the first part is missing. -/
def splitLast (name : String) : Option String × String :=
  match (Text.split '.' name).reverse with
  | [] => (none, "")
  | [only] => (none, only)
  | leaf :: before => (some (String.intercalate "." before.reverse), leaf)

/-- The full name of the legacy function. -/
def legacyName (m : Mapping) : String := m.legacyType ++ "." ++ m.legacyMethod

/-- The full name of the fluent entry point. -/
def entryPointName (m : Mapping) : String := m.fluentType ++ "." ++ m.entryPoint

/-- The full name of the tolerance wrapper. -/
def toleranceWrapperName (m : Mapping) : String := m.fluentType ++ "." ++ m.toleranceWrapper

/-- The package around the legacy type, if it has one. -/
def legacyParent (m : Mapping) : Option String :=
  match (splitLast m.legacyType).1 with
  | some "" => none
  | p => p

/-- The last part of the name of the legacy type. -/
def legacyLeaf (m : Mapping) : String := (splitLast m.legacyType).2

end Mapping

end FluentShift
