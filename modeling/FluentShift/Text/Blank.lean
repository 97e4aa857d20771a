/-!
# FluentShift.Text.Blank - blanks

Two classes of characters that only keep words apart: the Unicode property `White_Space`, and that class with the four
information separators.  Some of them end a line.
-/

namespace FluentShift.Text

/-- Whether a character has the Unicode property `White_Space`. -/
def isWhiteSpace (c : Char) : Bool :=
  let n := c.toNat
  (9 ≤ n && n ≤ 13) || n = 32 || n = 0x85 || n = 0xa0 || n = 0x1680 || (0x2000 ≤ n && n ≤ 0x200a) || n = 0x2028 ||
    n = 0x2029 || n = 0x202f || n = 0x205f || n = 0x3000

/-- Whether a character is white space or an information separator. -/
def isBlank (c : Char) : Bool :=
  isWhiteSpace c || (0x1c ≤ c.toNat && c.toNat ≤ 0x1f)

/-- Whether a text has nothing but blanks. -/
def isBlankText (s : String) : Bool := s.toList.all isBlank

/-- A text without the white space at its ends. -/
def trimWhiteSpace (s : String) : String :=
  String.ofList ((s.toList.dropWhile isWhiteSpace).reverse.dropWhile isWhiteSpace).reverse

/-- Whether a character ends a line. -/
def isLineEnd (c : Char) : Bool :=
  let n := c.toNat
  (10 ≤ n && n ≤ 13) || (0x1c ≤ n && n ≤ 0x1e) || n = 0x85 || n = 0x2028 || n = 0x2029

/-- How many lines characters make; a carriage return and a line feed end one line, and what follows the last end counts
unless it is empty. -/
def countLines : List Char → Nat
  | [] => 0
  | '\r' :: '\n' :: cs => countLines cs + 1
  | [_] => 1
  | c :: d :: cs => if isLineEnd c then countLines (d :: cs) + 1 else countLines (d :: cs)

end FluentShift.Text
