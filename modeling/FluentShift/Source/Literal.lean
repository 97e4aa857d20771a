import FluentShift.Source.Parse

/-!
# FluentShift.Source.Literal - the value of a string literal

`stringValue?` reads a string leaf or a concatenation of them: the prefix, the quotes and the escapes.  Byte strings,
template strings and escapes by character name have no value here.
-/

namespace FluentShift.Source

/-- The lower-case prefix of a string literal. -/
def stringPrefix (text : String) : List Char :=
  (text.toList.takeWhile fun c => c ≠ '"' && c ≠ '\'').map Char.toLower

/-- The number that hexadecimal digits write. -/
def hexValue? (cs : List Char) : Option Nat :=
  cs.foldl (fun acc c => do
    let n ← acc
    if c.isDigit then some (n * 16 + (c.toNat - '0'.toNat))
    else if 'a' ≤ c && c ≤ 'f' then some (n * 16 + (c.toNat - 'a'.toNat + 10))
    else if 'A' ≤ c && c ≤ 'F' then some (n * 16 + (c.toNat - 'A'.toNat + 10))
    else none) (some 0)

/-- The character of a code point that is one. -/
def charOf? (n : Nat) : Option Char :=
  if h : n.isValidChar then some (Char.ofNatAux n h) else none

/-- Digits of base eight. -/
def isOctalDigit (c : Char) : Bool := '0' ≤ c && c ≤ '7'

/-- Reads the escapes of a string; a backslash before any other character stays. -/
def unescape : Nat → List Char → Option (List Char)
  | 0, _ => none
  | _, [] => some []
  | fuel + 1, '\\' :: c :: cs =>
    let hex (n : Nat) : Option (List Char) := do
      let ds := cs.take n
      if ds.length ≠ n then none
      let v ← hexValue? ds
      return (← charOf? v) :: (← unescape fuel (cs.drop n))
    if c = '\n' then unescape fuel cs
    else if c = '\r' then unescape fuel (if cs.take 1 = ['\n'] then cs.drop 1 else cs)
    else if c = 'x' then hex 2
    else if c = 'u' then hex 4
    else if c = 'U' then hex 8
    else if c = 'N' then none
    else if isOctalDigit c then
      let more := (cs.take 2).takeWhile isOctalDigit
      let v := (c :: more).foldl (fun n d => n * 8 + (d.toNat - '0'.toNat)) 0
      do return (← charOf? v) :: (← unescape fuel (cs.drop more.length))
    else
      match [('\\', '\\'), ('\'', '\''), ('"', '"'), ('a', '\x07'), ('b', '\x08'), ('f', '\x0c'), ('n', '\n'),
          ('r', '\r'), ('t', '\t'), ('v', '\x0b')].find? (fun e => e.1 = c) with
      | some e => (unescape fuel cs).map (e.2 :: ·)
      | none => (unescape fuel cs).map (fun r => '\\' :: c :: r)
  | fuel + 1, '\r' :: '\n' :: cs => (unescape fuel cs).map ('\n' :: ·)
  | fuel + 1, '\r' :: cs => (unescape fuel cs).map ('\n' :: ·)
  | fuel + 1, c :: cs => (unescape fuel cs).map (c :: ·)

/-- The value of the text of a string literal. -/
def literalValue? (text : String) : Option String := do
  let low := stringPrefix text
  if low.any (fun c => c = 'b' || c = 'f' || c = 't') then none
  let quoted := text.toList.drop low.length
  let n := if quoted.take 3 = ['"', '"', '"'] || quoted.take 3 = ['\'', '\'', '\''] then 3 else 1
  let body := (quoted.drop n).take (quoted.length - 2 * n)
  if low.contains 'r' then some (String.ofList body)
  else (unescape (body.length + 1) body).map String.ofList

/-- The value of a string expression: one literal, or several in a row. -/
def Tree.stringValue? : Tree → Option String :=
  let leaf : Leaf → Option String := fun l => if l.kind = .string then literalValue? l.text else none
  let node : Kind → List (Tree × Option String) → Option String := fun k ts =>
    let inner := ts.filter fun t => !t.1.isTrivia && !t.1.isMark "(" && !t.1.isMark ")"
    match k, inner with
    | .paren, [t] => t.2
    | .concatenation, _ => inner.foldl (fun acc t => do return (← acc) ++ (← t.2)) (some "")
    | _, _ => none
  Tree.para leaf node

end FluentShift.Source
