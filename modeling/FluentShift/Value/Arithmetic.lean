import FluentShift.Failure
import FluentShift.Value.Text

/-!
# FluentShift.Value.Arithmetic - calculating with plain data

Numbers are added and multiplied exactly; texts and lists are joined and repeated.  Everything else is a value of the
wrong type.
-/

namespace FluentShift.Value

/-- Whether a number is whole by its type. -/
def isWhole : Value → Bool
  | .int _ | .bool _ => true
  | _ => false

/-- A failure for a value of the wrong type. -/
def wrongType (message : String) : Failure := .mishap .wrongType message

/-- What is wrong with adding two values. -/
def plusFault (a b : Value) : Failure :=
  match a with
  | .text _ => wrongType ("can only concatenate str (not \"" ++ b.typeName ++ "\") to str")
  | .list _ => wrongType ("can only concatenate list (not \"" ++ b.typeName ++ "\") to list")
  | _ => wrongType ("unsupported operand type(s) for +: '" ++ a.typeName ++ "' and '" ++ b.typeName ++ "'")

/-- The sum of two values. -/
def plus (a b : Value) : Except Failure Value :=
  match a, b with
  | .text s, .text t => .ok (.text (s ++ t))
  | .list vs, .list ws => .ok (.list (vs ++ ws))
  | _, _ =>
    match a.decimal?, b.decimal? with
    | some (m, p), some (n, q) =>
      if a.isWhole && b.isWhole then .ok (.int (m + n))
      else .ok (.real (m * powerOfTen q + n * powerOfTen p) (p + q))
    | _, _ => .error (plusFault a b)

/-- A value taken twice. -/
def twice (a : Value) : Except Failure Value :=
  match a with
  | .text s => .ok (.text (s ++ s))
  | .list vs => .ok (.list (vs ++ vs))
  | _ =>
    match a.decimal? with
    | some (m, p) => .ok (if a.isWhole then .int (2 * m) else .real (2 * m) p)
    | none => .error (wrongType ("unsupported operand type(s) for *: '" ++ a.typeName ++ "' and 'int'"))

/-- How many parts a value has. -/
def size (a : Value) : Except Failure Value :=
  match a with
  | .text s => .ok (.ofNat s.length)
  | .bytes b => .ok (.ofNat b.length)
  | .list vs => .ok (.ofNat vs.length)
  | .mapping es => .ok (.ofNat es.length)
  | _ => .error (wrongType ("object of type '" ++ a.typeName ++ "' has no len()"))

end FluentShift.Value
