import FluentShift.Text.Quoted
import FluentShift.Value

/-!
# FluentShift.Value.Text - plain data as text

`shown` is how a value stands in a message: a text as it is, everything else as it would be written in source code.
-/

namespace FluentShift.Value

/-! ### Numbers -/

/-- Digits without the zeros at the end, and how many zeros there were. -/
def dropZeros (digits : List Char) : List Char × Nat :=
  let kept := (digits.reverse.dropWhile (· = '0')).reverse
  (kept, digits.length - kept.length)

/-- An exponent with its sign and at least two digits. -/
def exponentText (e : Int) : String :=
  let digits := toString e.natAbs
  (if e < 0 then "e-" else "e+") ++ (if digits.length < 2 then "0" ++ digits else digits)

/-- The number `0.d₁d₂… * 10 ^ point`: positional from `0.0001` up to below `10 ^ 16`, with an exponent otherwise. -/
def decimalText (digits : List Char) (point : Int) : String :=
  if -4 < point && point ≤ 16 then
    if point ≤ 0 then "0." ++ String.ofList (List.replicate point.natAbs '0' ++ digits)
    else
      let n := point.toNat
      if digits.length ≤ n then String.ofList (digits ++ List.replicate (n - digits.length) '0') ++ ".0"
      else String.ofList (digits.take n) ++ "." ++ String.ofList (digits.drop n)
  else
    match digits with
    | [d] => String.ofList [d] ++ exponentText (point - 1)
    | d :: ds => String.ofList [d] ++ "." ++ String.ofList ds ++ exponentText (point - 1)
    | [] => "0.0"

/-- The number `digits * 10 ^ (-places)`. -/
def realText (digits : Int) (places : Nat) : String :=
  let (kept, zeros) := dropZeros (toString digits.natAbs).toList
  if kept.isEmpty then "0.0"
  else
    let point : Int := (kept.length + zeros : Nat) - (places : Int)
    (if digits < 0 then "-" else "") ++ decimalText kept point

/-- Bytes as a quoted literal. -/
def bytesText (b : List UInt8) : String :=
  let cs := b.map fun x => Char.ofNat x.toNat
  let q := if cs.contains '\'' && !cs.contains '"' then '"' else '\''
  let one (c : Char) : List Char :=
    if c.toNat < 127 then Text.escapeChar q c else '\\' :: 'x' :: Text.hexDigits 2 c.toNat
  String.ofList ('b' :: q :: cs.flatMap one ++ [q])

/-! ### Values -/

mutual

/-- A value as it would be written in source code. -/
def written : Value → String
  | .null => "None"
  | .bool b => if b then "True" else "False"
  | .int n => toString n
  | .real d p => realText d p
  | .odd s => s
  | .text s => Text.quoted s
  | .bytes b => bytesText b
  | .moment s => s
  | .list vs => "[" ++ writtenItems vs ++ "]"
  | .mapping es => "\x7b" ++ writtenEntries es ++ "\x7d"

/-- Values with commas between them. -/
def writtenItems : List Value → String
  | [] => ""
  | [v] => v.written
  | v :: vs => v.written ++ ", " ++ writtenItems vs

/-- Entries of a mapping with commas between them. -/
def writtenEntries : List (Value × Value) → String
  | [] => ""
  | [(k, v)] => k.written ++ ": " ++ v.written
  | (k, v) :: es => k.written ++ ": " ++ v.written ++ ", " ++ writtenEntries es

end

/-- A value in a message. -/
def shown : Value → String
  | .text s => s
  | v => v.written

/-- The name of the type of a value, as messages give it. -/
def typeName : Value → String
  | .null => "NoneType"
  | .bool _ => "bool"
  | .int _ => "int"
  | .real .. | .odd _ => "float"
  | .text _ => "str"
  | .bytes _ => "bytes"
  | .moment _ => "datetime.date"
  | .list _ => "list"
  | .mapping _ => "dict"

end FluentShift.Value
