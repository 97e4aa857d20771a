import FluentShift.Failure
import FluentShift.Mapping
import FluentShift.Types.Descriptor

/-!
# FluentShift.Rewrite.Classification - the form a legacy call takes

The number of arguments and the tag of one of them decide the shape of the fluent chain and where every argument goes:

* two arguments: equality;
* three, the last one floating point: closeness within it;
* three otherwise: equality with a message;
* four: closeness with a message, at the configured places.
-/

namespace FluentShift.Rewrite

open FluentShift.Types

/-- The form of a fluent chain. -/
inductive Shape where
  | equality
  | messageEquality
  | tolerance
  | messageTolerance
  deriving DecidableEq, Repr, Inhabited

namespace Shape

/-- How many arguments a shape takes. -/
def arity : Shape → Nat
  | equality => 2
  | messageEquality => 3
  | tolerance => 3
  | messageTolerance => 4

/-- Whether a shape has a message. -/
def hasMessage : Shape → Bool
  | messageEquality | messageTolerance => true
  | _ => false

/-- Whether a shape compares within a tolerance. -/
def hasTolerance : Shape → Bool
  | tolerance | messageTolerance => true
  | _ => false

/-- The name of a shape in reports. -/
def label : Shape → String
  | equality => "two_arg_equality"
  | messageEquality => "three_arg_message_equality"
  | tolerance => "three_arg_tolerance"
  | messageTolerance => "four_arg_message_tolerance"

end Shape

/-- How a message is attached: a text as a label, anything else as something that makes the text later. -/
inductive MessageStyle where
  | labelled
  | deferred
  deriving DecidableEq, Repr, Inhabited

/-- The word for a style. -/
def MessageStyle.label : MessageStyle → String
  | labelled => "labelled"
  | deferred => "deferred"

/-- The style for a message argument with a tag. -/
def MessageStyle.ofTag : Tag → MessageStyle
  | .string => .labelled
  | _ => .deferred

/-- The parts that arguments play in a chain. -/
inductive Slot where
  | expected
  | actual
  | message
  | delta
  deriving DecidableEq, Repr, Inhabited

/-- The name of a slot in reports and templates. -/
def Slot.label : Slot → String
  | .expected => "expected"
  | .actual => "actual"
  | .message => "message"
  | .delta => "delta"

/-- A shape, the argument for every slot and the style of the message. -/
structure Classification where
  shape : Shape
  slots : List (Slot × ArgumentIndex)
  style : Option MessageStyle
  deriving DecidableEq, Repr, Inhabited

/-- The item of a list that an index names; a negative one counts from the end. -/
def ArgumentIndex.pick {α : Type} (i : ArgumentIndex) (xs : List α) : Except Failure α :=
  match i with
  | .unusable => .error (.mishap .wrongType "an argument index is not a number")
  | .at_ n =>
    let k := if n < 0 then n + xs.length else n
    match k, xs[k.toNat]? with
    | .ofNat _, some x => .ok x
    | _, _ => .error (.mishap .index "an argument index is out of range")

/-- Chooses the shape of a call with `count` arguments from their tags. -/
def classify (m : Mapping) (count : Int) (tags : List Tag) : Except Failure Classification :=
  if (tags.length : Int) ≠ count then
    .error (.unsupportedCall ("Expected " ++ toString count ++ " argument tags, got " ++ toString tags.length)
      (some count))
  else
    match tags with
    | [_, _] => .ok ⟨.equality, [(.expected, .at_ 0), (.actual, .at_ 1)], none⟩
    | [_, _, third] =>
      if third = .floatingPoint then
        .ok ⟨.tolerance, [(.expected, .at_ 0), (.actual, .at_ 1), (.delta, .at_ 2)], none⟩
      else
        .ok ⟨.messageEquality, [(.expected, .at_ 0), (.actual, .at_ 1), (.message, .at_ 2)],
          some (.ofTag third)⟩
    | [_, _, _, _] => do
      let tag ← ArgumentIndex.pick m.messageIndex tags
      .ok ⟨.messageTolerance,
        [(.expected, .at_ 0), (.actual, .at_ 1), (.message, m.messageIndex), (.delta, m.deltaIndex)],
        some (.ofTag tag)⟩
    | _ =>
      .error (.unsupportedCall ("No rewrite shape for a call with " ++ toString count ++ " arguments") (some count))

/-- The fluent names that a classified call needs. -/
def requiredNames (m : Mapping) (c : Classification) : List String :=
  if c.shape.hasTolerance then
    if m.toleranceWrapper < m.entryPoint then [m.toleranceWrapper, m.entryPoint]
    else if m.toleranceWrapper = m.entryPoint then [m.entryPoint]
    else [m.entryPoint, m.toleranceWrapper]
  else [m.entryPoint]

end FluentShift.Rewrite
