import FluentShift.Failure
import FluentShift.Text.Blank
import FluentShift.Text.Identifier
import FluentShift.Text.Utf8
import FluentShift.Value

/-!
# FluentShift.Config.Reading - settings read with goodwill

A setting may be written in more than one way: a number as text, a switch as a word.  Each `read…` gives the value that
was meant, or the rule that the given value breaks.
-/

namespace FluentShift.Config

/-- A rule that a value breaks, and how to say so. -/
structure Objection where
  rule : String
  message : String
  deriving DecidableEq, Repr, Inhabited

/-- A value that was meant, or an objection. -/
abbrev Reading (α : Type) := Except Objection α

/-- An objection to the meaning of a value. -/
def Objection.meaning (message : String) : Objection := ⟨"value_error", "Value error, " ++ message⟩

/-! ### Text -/

/-- Reads a text; bytes are one when they can be read as one. -/
def readText : Value → Reading String
  | .text s => .ok s
  | .bytes b =>
    match Text.Utf8.decode ⟨b.toArray⟩ with
    | .ok s => .ok s
    | .error _ => .error ⟨"string_unicode", "Input should be a valid string, unable to parse raw data as a unicode string"⟩
  | _ => .error ⟨"string_type", "Input should be a valid string"⟩

/-! ### Whole numbers -/

/-- The number that digits make. -/
def digitsValue (ds : List Char) : Nat := ds.foldl (fun n c => n * 10 + (c.toNat - '0'.toNat)) 0

/-- Digits in which a single underscore may stand between two; the digits alone. -/
def plainDigits? : List Char → Option (List Char)
  | [] => none
  | [c] => if c.isDigit then some [c] else none
  | c :: '_' :: cs => if c.isDigit then (plainDigits? cs).map (c :: ·) else none
  | c :: cs => if c.isDigit then (plainDigits? cs).map (c :: ·) else none

/-- A text cut before its sign. -/
def splitSign : List Char → Bool × List Char
  | '-' :: cs => (true, cs)
  | '+' :: cs => (false, cs)
  | cs => (false, cs)

/-- A text without a fraction of zeros. -/
def dropZeroFraction (cs : List Char) : List Char :=
  let whole := cs.takeWhile (· ≠ '.')
  let fraction := cs.drop (whole.length + 1)
  if fraction.all (· = '0') then whole else cs

/-- The most characters that a number may have. -/
def longestNumber : Nat := 4300

/-- Reads a whole number from a text. -/
def readDigits (s : String) : Reading Int :=
  let cs := (Text.trimWhiteSpace s).toList
  if longestNumber < cs.length then
    .error ⟨"int_parsing_size", "Unable to parse input string as an integer, exceeded maximum size"⟩
  else
    let (negative, rest) := splitSign cs
    match plainDigits? (dropZeroFraction rest) with
    | some ds => .ok (if negative then -(digitsValue ds : Int) else digitsValue ds)
    | none => .error ⟨"int_parsing", "Input should be a valid integer, unable to parse string as an integer"⟩

/-- The whole number that a decimal number is, if it is one. -/
def wholeOf? (digits : Int) (places : Nat) : Option Int :=
  if digits % Value.powerOfTen places = 0 then some (digits / Value.powerOfTen places) else none

/-- Reads a whole number. -/
def readInt : Value → Reading Int
  | .int n => .ok n
  | .bool b => .ok (if b then 1 else 0)
  | .real d p =>
    match wholeOf? d p with
    | some n => .ok n
    | none => .error ⟨"int_from_float", "Input should be a valid integer, got a number with a fractional part"⟩
  | .odd _ => .error ⟨"finite_number", "Input should be a finite number"⟩
  | .text s => readDigits s
  | .bytes b =>
    match Text.Utf8.decode ⟨b.toArray⟩ with
    | .ok s => readDigits s
    | .error _ => .error ⟨"int_parsing", "Input should be a valid integer, unable to parse string as an integer"⟩
  | _ => .error ⟨"int_type", "Input should be a valid integer"⟩

/-- Reads a whole number between two bounds. -/
def readBetween (low high : Int) (v : Value) : Reading Int := do
  let n ← readInt v
  if high < n then throw ⟨"less_than_equal", "Input should be less than or equal to " ++ toString high⟩
  else if n < low then throw ⟨"greater_than_equal", "Input should be greater than or equal to " ++ toString low⟩
  else return n

/-! ### Switches -/

/-- The words for off and for on. -/
def switchWords : List (String × Bool) :=
  [("0", false), ("off", false), ("f", false), ("false", false), ("n", false), ("no", false),
   ("1", true), ("on", true), ("t", true), ("true", true), ("y", true), ("yes", true)]

/-- A text in small letters, as far as they are ASCII. -/
def lowerAscii (s : String) : String := String.ofList (s.toList.map Char.toLower)

/-- The objection to a value that is neither on nor off. -/
def unclearSwitch : Objection := ⟨"bool_parsing", "Input should be a valid boolean, unable to interpret input"⟩

/-- Reads a switch from a number. -/
def readSwitchNumber (n : Int) : Reading Bool :=
  if n = 0 then .ok false else if n = 1 then .ok true else .error unclearSwitch

/-- Reads a switch from a word. -/
def readSwitchWord (s : String) : Reading Bool :=
  match switchWords.lookup (lowerAscii s) with
  | some b => .ok b
  | none => .error unclearSwitch

/-- Reads a switch. -/
def readBool : Value → Reading Bool
  | .bool b => .ok b
  | .int n => readSwitchNumber n
  | .real d p =>
    match wholeOf? d p with
    | some n => readSwitchNumber n
    | none => .error ⟨"bool_type", "Input should be a valid boolean"⟩
  | .text s => readSwitchWord s
  | .bytes b =>
    match Text.Utf8.decode ⟨b.toArray⟩ with
    | .ok s => readSwitchWord s
    | .error _ => .error unclearSwitch
  | _ => .error ⟨"bool_type", "Input should be a valid boolean"⟩

/-- Reads a value that may be missing. -/
def readOptional {α : Type} (read : Value → Reading α) : Value → Reading (Option α)
  | .null => .ok none
  | v => some <$> read v

end FluentShift.Config
