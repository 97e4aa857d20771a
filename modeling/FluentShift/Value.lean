/-!
# FluentShift.Value - plain data

A `Value` is what a configuration file or a caller hands over before anything is checked: the usual scalars, lists and
mappings.  Decimal numbers are kept as they are written, digits and exponent.
-/

namespace FluentShift

/-- Plain data. -/
inductive Value where
  | null
  | bool (b : Bool)
  | int (n : Int)
  /-- The number `digits * 10 ^ (-places)`. -/
  | real (digits : Int) (places : Nat)
  /-- A number that no decimal writes: infinite, or not a number. -/
  | odd (text : String)
  | text (s : String)
  | bytes (b : List UInt8)
  /-- A date or a time, as it was written. -/
  | moment (text : String)
  | list (vs : List Value)
  | mapping (entries : List (Value × Value))
  deriving Repr, Inhabited

namespace Value

/-- A number as digits and places; whole numbers have none, and true and false count as one and zero. -/
def decimal? : Value → Option (Int × Nat)
  | .int n => some (n, 0)
  | .bool b => some (if b then 1 else 0, 0)
  | .real d p => some (d, p)
  | _ => none

/-- Ten to a power. -/
def powerOfTen (n : Nat) : Int := Int.pow 10 n

/-- Whether two values are the same number. -/
def sameNumber (a b : Value) : Bool :=
  match a.decimal?, b.decimal? with
  | some (m, p), some (n, q) => m * powerOfTen q = n * powerOfTen p
  | _, _ => false

mutual

/-- Equality of plain data, entry by entry. -/
def same : Value → Value → Bool
  | .null, .null => true
  | .odd a, .odd b => a = b
  | .text a, .text b => a = b
  | .bytes a, .bytes b => a = b
  | .moment a, .moment b => a = b
  | .list a, .list b => sameAll a b
  | .mapping a, .mapping b => sameEntries a b
  | a, b => a.sameNumber b

/-- Equality of lists of plain data. -/
def sameAll : List Value → List Value → Bool
  | [], [] => true
  | a :: as, b :: bs => a.same b && sameAll as bs
  | _, _ => false

/-- Equality of the entries of mappings, in order. -/
def sameEntries : List (Value × Value) → List (Value × Value) → Bool
  | [], [] => true
  | (a, x) :: as, (b, y) :: bs => a.same b && x.same y && sameEntries as bs
  | _, _ => false

end

/-- Whether a condition on plain data holds: everything holds but nothing, false, zero and what is empty. -/
def holds : Value → Bool
  | .null => false
  | .bool b => b
  | .int n => n ≠ 0
  | .real d _ => d ≠ 0
  | .odd _ => true
  | .text s => s ≠ ""
  | .bytes b => b ≠ []
  | .moment _ => true
  | .list vs => !vs.isEmpty
  | .mapping es => !es.isEmpty

/-- The text of a text value. -/
def text? : Value → Option String
  | .text s => some s
  | _ => none

/-- The number of a whole number; true and false count as one and zero. -/
def int? : Value → Option Int
  | .int n => some n
  | .bool b => some (if b then 1 else 0)
  | _ => none

/-- The texts of a list. -/
def texts : Value → List String
  | .list vs => vs.filterMap text?
  | _ => []

/-- The value of a key in a mapping. -/
def get? (key : String) : Value → Option Value
  | .mapping es => (es.find? fun e => e.1.same (.text key)).map (·.2)
  | _ => none

/-- A list of texts. -/
def ofTexts (ss : List String) : Value := .list (ss.map .text)

/-- A mapping with text keys. -/
def record (fields : List (String × Value)) : Value := .mapping (fields.map fun f => (.text f.1, f.2))

/-- A count. -/
def ofNat (n : Nat) : Value := .int n

end Value

end FluentShift
