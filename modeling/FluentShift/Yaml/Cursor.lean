import FluentShift.Failure
import FluentShift.Yaml.Node

/-!
# FluentShift.Yaml.Cursor - a place in a YAML text

Reading goes through a text once, character by character, and keeps count of lines and columns, because the columns of a
text are its structure.  Nodes with a name are kept for those who refer to them.
-/

namespace FluentShift.Yaml

/-! ### Faults -/

/-- Why a text has no value: it is not well formed, or a part of it means nothing. -/
inductive Fault where
  | malformed
  | meaningless (cause : Failure)
  deriving Inhabited

/-- A part that means nothing. -/
def noValue {α : Type} (cause : Mishap) (message : String) : Except Fault α :=
  .error (.meaningless (.mishap cause message))

/-- What is not well formed in one way may be so in another; what means nothing stays that way. -/
instance : Alternative (Except Fault) where
  failure := .error .malformed
  orElse a b :=
    match a with
    | .error .malformed => b ()
    | _ => a

/-! ### Characters -/

/-- Whether a character ends a line. -/
def isBreak (c : Char) : Bool := c = '\n' || c = '\r' || c = '\u0085' || c = '\u2028' || c = '\u2029'

/-- Whether a character keeps words apart. -/
def isGap (c : Char) : Bool := c = ' ' || c = '\t' || isBreak c

/-- Whether a text goes on with a gap or ends. -/
def gapFollows : List Char → Bool
  | [] => true
  | c :: _ => isGap c

/-- Whether a character has a meaning between the brackets of a flow collection. -/
def isFlowMark (c : Char) : Bool := c = ',' || c = '[' || c = ']' || c = '\x7b' || c = '\x7d'

/-- Whether a character can stand in a document. -/
def isPrintable (c : Char) : Bool :=
  let n := c.toNat
  n = 9 || n = 10 || n = 13 || (0x20 ≤ n && n ≤ 0x7e) || n = 0x85 || (0xa0 ≤ n && n ≤ 0xd7ff) ||
    (0xe000 ≤ n && n ≤ 0xfffd) || 0x10000 ≤ n

/-! ### Places -/

/-- A place in a text: what follows, where it is, and the nodes that have a name. -/
structure Cursor where
  rest : List Char
  line : Nat
  column : Nat
  named : List (String × Node)
  deriving Inhabited

/-- Reading: it moves on in a text, or finds a fault in it. -/
abbrev Read := StateT Cursor (Except Fault)

namespace Cursor

/-- The place after one character. -/
def step (c : Char) (k : Cursor) : Cursor :=
  if isBreak c then { k with line := k.line + 1, column := 0 } else { k with column := k.column + 1 }

/-- The place after a number of characters. -/
def advance : Nat → Cursor → Cursor
  | 0, k => k
  | n + 1, k =>
    match k.rest with
    | [] => k
    | c :: cs => advance n (step c { k with rest := cs })

/-- How many characters there are before the next token: blanks, line breaks and comments. -/
def gapLength : Bool → List Char → Nat
  | _, [] => 0
  | true, c :: cs => gapLength (!isBreak c) cs + 1
  | false, c :: cs =>
    if c = ' ' || isBreak c then gapLength false cs + 1
    else if c = '#' then gapLength true cs + 1
    else 0

/-- Whether a line here separates documents or ends one. -/
def isAtMarker (k : Cursor) : Bool :=
  k.column = 0 && (k.rest.take 3 = ['-', '-', '-'] || k.rest.take 3 = ['.', '.', '.']) && gapFollows (k.rest.drop 3)

/-- Whether a document ends here. -/
def isAtEnd (k : Cursor) : Bool := k.rest.isEmpty || k.isAtMarker

/-- Whether a mark stands here by itself. -/
def isAtMark (mark : Char) (k : Cursor) : Bool :=
  match k.rest with
  | c :: cs => c = mark && gapFollows cs
  | [] => false

end Cursor

namespace Read

/-- The place as it is. -/
def here : Read Cursor := get

/-- Moves on by some characters. -/
def skip (n : Nat) : Read Unit := modify (Cursor.advance n)

/-- Moves on to the next token. -/
def skipGap : Read Unit := modify fun k => k.advance (Cursor.gapLength false k.rest)

/-- Moves on over blanks. -/
def skipBlanks : Read Unit := modify fun k => k.advance (k.rest.takeWhile (· = ' ')).length

/-- The next character. -/
def peek : Read Char := do
  match (← here).rest with
  | c :: _ => return c
  | [] => failure

/-- Moves on over an expected character. -/
def expect (c : Char) : Read Unit := do
  if (← peek) = c then skip 1 else failure

/-- Moves on over the characters that satisfy a condition, and gives them. -/
def word (p : Char → Bool) : Read (List Char) := do
  let cs := (← here).rest.takeWhile p
  skip cs.length
  return cs

/-- Does not read what is not well formed, and then stays where it is. -/
def attempt {α : Type} (r : Read α) : Read (Option α) := fun k =>
  match r.run k with
  | .ok (a, k') => .ok (some a, k')
  | .error .malformed => .ok (none, k)
  | .error f => .error f

/-- Runs with more steps than a text has characters. -/
def fuel : Read Nat := return (← here).rest.length + 1

end Read

end FluentShift.Yaml
