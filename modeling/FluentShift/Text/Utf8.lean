/-!
# FluentShift.Text.Utf8 - bytes that are text

`decode?` reads bytes as text.  Where they are none, `firstFault` says which bytes are at fault: the first ones that no
continuation makes a character.
-/

namespace FluentShift.Text.Utf8

/-! ### Faults -/

/-- What is wrong with bytes that are no text. -/
inductive FaultKind where
  | badStart
  | badContinuation
  | cutShort
  deriving DecidableEq, Repr, Inhabited

/-- Which bytes are no text: where they start, how many they are, the first of them, and why. -/
structure Fault where
  position : Nat
  width : Nat
  byte : UInt8
  kind : FaultKind
  deriving DecidableEq, Repr, Inhabited

/-- Whether a byte continues a character. -/
def isContinuation (b : UInt8) : Bool := 0x80 ≤ b && b < 0xC0

/-- The range of the second byte after a first byte: it rules out overlong forms, surrogates and what lies beyond the last
code point. -/
def secondRange (first : UInt8) : UInt8 × UInt8 :=
  if first = 0xE0 then (0xA0, 0xBF)
  else if first = 0xED then (0x80, 0x9F)
  else if first = 0xF0 then (0x90, 0xBF)
  else if first = 0xF4 then (0x80, 0x8F)
  else (0x80, 0xBF)

/-- How many bytes a character has that starts with a byte; zero if none does. -/
def lengthFrom (first : UInt8) : Nat :=
  if first < 0x80 then 1
  else if first < 0xC2 then 0
  else if first < 0xE0 then 2
  else if first < 0xF0 then 3
  else if first < 0xF5 then 4
  else 0

/-- How many of the bytes after a first byte go with it, at most as many as there should be. -/
def followers (first : UInt8) (rest : List UInt8) : Nat :=
  let range := secondRange first
  match rest with
  | [] => 0
  | second :: more =>
    if range.1 ≤ second && second ≤ range.2 then
      1 + ((more.take (lengthFrom first - 2)).takeWhile isContinuation).length
    else 0

/-- The first fault of bytes from a position on, reading at most as many characters as there are bytes. -/
def firstFaultFrom : Nat → Nat → List UInt8 → Option Fault
  | _, _, [] => none
  | 0, _, _ => none
  | fuel + 1, position, first :: rest =>
    let length := lengthFrom first
    if length = 0 then some ⟨position, 1, first, .badStart⟩
    else
      let found := if length = 1 then 0 else followers first rest
      if found + 1 = length then firstFaultFrom fuel (position + length) (rest.drop (length - 1))
      else if found = rest.length then some ⟨position, found + 1, first, .cutShort⟩
      else some ⟨position, found + 1, first, .badContinuation⟩

/-- The first fault of bytes. -/
def firstFault (bytes : List UInt8) : Option Fault := firstFaultFrom bytes.length 0 bytes

/-- A byte in base sixteen. -/
def byteText (b : UInt8) : String :=
  let digit (n : Nat) : Char := if n < 10 then Char.ofNat (48 + n) else Char.ofNat (87 + n)
  String.ofList ['0', 'x', digit (b.toNat / 16), digit (b.toNat % 16)]

/-- The words for a kind of fault. -/
def FaultKind.message : FaultKind → String
  | .badStart => "invalid start byte"
  | .badContinuation => "invalid continuation byte"
  | .cutShort => "unexpected end of data"

/-- The words for a fault. -/
def Fault.message (f : Fault) : String :=
  let which :=
    if f.width = 1 then "byte " ++ byteText f.byte ++ " in position " ++ toString f.position
    else "bytes in position " ++ toString f.position ++ "-" ++ toString (f.position + f.width - 1)
  "'utf-8' codec can't decode " ++ which ++ ": " ++ f.kind.message

/-! ### Reading -/

/-- Reads bytes as text, or says what is wrong with them. -/
def decode (bytes : ByteArray) : Except String String :=
  match String.fromUTF8? bytes with
  | some s => .ok s
  | none =>
    match firstFault bytes.toList with
    | some f => .error f.message
    | none => .error "'utf-8' codec can't decode the data"

end FluentShift.Text.Utf8
