import FluentShift.Yaml.Cursor

/-!
# FluentShift.Yaml.Text - the texts of scalars

A scalar is plain, quoted once or twice, or a block of lines.  In all but the blocks a line break between words is a
blank, and an empty line is a line break.
-/

namespace FluentShift.Yaml

/-! ### Line breaks -/

/-- Reads a line break; most are the same. -/
def readBreak : Read Char := do
  let c ← Read.peek
  if !isBreak c then failure
  if c = '\r' && ((← Read.here).rest.drop 1).head? = some '\n' then Read.skip 2 else Read.skip 1
  return if c = '\u2028' || c = '\u2029' then c else '\n'

/-- What a line break and empty lines after it come to. -/
def foldBreaks (first : Char) (others : List Char) : List Char :=
  if first ≠ '\n' then first :: others else if others.isEmpty then [' '] else others

/-- Reads empty lines, and the blanks before what follows them; `p` says what a blank is. -/
def readEmptyLines (p : Char → Bool) : Nat → Read (List Char)
  | 0 => failure
  | fuel + 1 => do
    if (← Read.here).isAtMarker then failure
    let _ ← Read.word p
    match (← Read.here).rest with
    | c :: _ =>
      if isBreak c then
        let b ← readBreak
        return b :: (← readEmptyLines p fuel)
      else return []
    | [] => return []

/-! ### Plain scalars -/

/-- How many characters of a plain scalar come before the next gap; `flow` says whether brackets are around it. -/
def plainLength (flow : Bool) : List Char → Nat
  | [] => 0
  | c :: cs =>
    let ends := isGap c || (flow && (isFlowMark c || c = '?')) ||
      (c = ':' && (gapFollows cs || (flow && (cs.head?.map isFlowMark).getD false)))
    if ends then 0 else plainLength flow cs + 1

/-- Whether a plain scalar can start here. -/
def startsPlain (flow : Bool) (cs : List Char) : Bool :=
  match cs with
  | [] => false
  | c :: rest =>
    let reserved := "-?:,[]\x7b\x7d#&*!|>'\"%@\x60".toList
    (!isGap c && !reserved.contains c) || (!gapFollows rest && (c = '-' || (!flow && (c = '?' || c = ':'))))

/-- Reads the gap inside a plain scalar: what it comes to, or nothing where the scalar ends. -/
def readPlainGap : Read (List Char) := do
  let blanks ← Read.word (· = ' ')
  match (← Read.here).rest with
  | c :: _ =>
    if isBreak c then
      let b ← readBreak
      match ← Read.attempt (readEmptyLines (· = ' ') (← Read.fuel)) with
      | some others => return foldBreaks b others
      | none => return []
    else return blanks
  | [] => return []

/-- Reads a plain scalar whose lines are indented by at least `least`. -/
def readPlain (flow : Bool) (least : Int) : Nat → Read (List Char)
  | 0 => failure
  | fuel + 1 => do
    let n := plainLength flow (← Read.here).rest
    let part := (← Read.here).rest.take n
    Read.skip n
    let gap ← readPlainGap
    let k ← Read.here
    let stops := gap.isEmpty || k.rest.head? = some '#' || (!flow && (k.column : Int) < least) || k.isAtMarker ||
      plainLength flow k.rest = 0
    if stops then return part else return part ++ gap ++ (← readPlain flow least fuel)

/-! ### Quoted scalars -/

/-- The characters that a backslash and a letter stand for. -/
def escapes : List (Char × Char) :=
  [('0', '\x00'), ('a', '\x07'), ('b', '\x08'), ('t', '\t'), ('\t', '\t'), ('n', '\n'), ('v', '\x0b'), ('f', '\x0c'),
   ('r', '\r'), ('e', '\x1b'), (' ', ' '), ('"', '"'), ('\\', '\\'), ('/', '/'), ('N', '\u0085'), ('_', '\u00a0'),
   ('L', '\u2028'), ('P', '\u2029')]

/-- The value of a hexadecimal digit. -/
def hexDigit? (c : Char) : Option Nat :=
  if c.isDigit then some (c.toNat - 48)
  else if 'a' ≤ c && c ≤ 'f' then some (c.toNat - 87)
  else if 'A' ≤ c && c ≤ 'F' then some (c.toNat - 55)
  else none

/-- The number that hexadecimal digits make. -/
def hexNumber? (cs : List Char) : Option Nat :=
  cs.foldlM (fun n c => (hexDigit? c).map (n * 16 + ·)) 0

/-- Reads a character given by its number in so many digits; there must be such a character. -/
def readNumbered (digits : Nat) : Read Char := do
  let cs := (← Read.here).rest.take digits
  match hexNumber? cs with
  | some n =>
    if cs.length < digits then failure
    if 0x7fffffff < n then noValue .overflow "Python int too large to convert to C int"
    if 0x10ffff < n then noValue .value "chr() arg not in range(0x110000)"
    Read.skip digits
    return Char.ofNat n
  | none => failure

/-- Reads what follows a backslash. -/
def readEscape : Read (List Char) := do
  let c ← Read.peek
  match escapes.lookup c with
  | some x =>
    Read.skip 1
    return [x]
  | none =>
    if isBreak c then
      let _ ← readBreak
      readEmptyLines (fun c => c = ' ' || c = '\t') (← Read.fuel)
    else
      Read.skip 1
      match c with
      | 'x' => return [← readNumbered 2]
      | 'u' => return [← readNumbered 4]
      | 'U' => return [← readNumbered 8]
      | _ => failure

/-- Reads the gap inside a quoted scalar. -/
def readQuotedGap : Read (List Char) := do
  let blanks ← Read.word fun c => c = ' ' || c = '\t'
  if isBreak (← Read.peek) then
    let b ← readBreak
    return foldBreaks b (← readEmptyLines (fun c => c = ' ' || c = '\t') (← Read.fuel))
  else return blanks

/-- Reads a quoted scalar after its opening quote. -/
def readQuoted (quote : Char) : Nat → Read (List Char)
  | 0 => failure
  | fuel + 1 => do
    let c ← Read.peek
    if c = quote then
      Read.skip 1
      if quote = '\'' && (← Read.here).rest.head? = some '\'' then
        Read.skip 1
        return '\'' :: (← readQuoted quote fuel)
      else return []
    else
      let part ←
        if isGap c then readQuotedGap
        else if c = '\\' && quote = '"' then do
          Read.skip 1
          readEscape
        else do
          Read.skip 1
          pure [c]
      return part ++ (← readQuoted quote fuel)

/-! ### Blocks of lines -/

/-- What is done with the line breaks at the end of a block. -/
inductive Chomp where
  | strip
  | clip
  | keep
  deriving DecidableEq, Repr

/-- Reads what follows the mark of a block: how it ends and how much deeper it is indented, if that is said. -/
def readBlockHead : Read (Chomp × Option Nat) := do
  let cs ← Read.word fun c => c = '+' || c = '-' || ('1' ≤ c && c ≤ '9')
  let chomp (c : Char) : Chomp := if c = '+' then .keep else .strip
  let digit (c : Char) : Nat := c.toNat - 48
  let head ← match cs with
    | [] => pure (.clip, none)
    | [c] => pure (if c.isDigit then (.clip, some (digit c)) else (chomp c, none))
    | [c, d] =>
      if c.isDigit && !d.isDigit then pure (chomp d, some (digit c))
      else if !c.isDigit && d.isDigit then pure (chomp c, some (digit d))
      else failure
    | _ => failure
  Read.skipBlanks
  match (← Read.here).rest with
  | '#' :: _ =>
    let _ ← Read.word (!isBreak ·)
  | _ => pure ()
  if !(← Read.here).rest.isEmpty then
    let _ ← readBreak
  return head

/-- Reads empty lines before a line that is indented by `indent`, and the blanks up to there. -/
def readBlockGap (indent : Nat) : Nat → Read (List Char)
  | 0 => failure
  | fuel + 1 => do
    let k ← Read.here
    Read.skip ((k.rest.take (indent - k.column)).takeWhile (· = ' ')).length
    match (← Read.here).rest with
    | c :: _ =>
      if isBreak c then
        let b ← readBreak
        return b :: (← readBlockGap indent fuel)
      else return []
    | [] => return []

/-- The deepest indentation of empty lines and the line after them. -/
def deepestIndent : Nat → Nat → List Char → Nat
  | deepest, _, [] => deepest
  | deepest, column, c :: cs =>
    if c = ' ' then deepestIndent (max deepest (column + 1)) (column + 1) cs
    else if isBreak c then deepestIndent deepest 0 cs
    else deepest

/-- Reads the lines of a block that is indented by `indent`; `gap` are the line breaks before the next one.  Gives the
text without the line breaks at its end, the last line break, and those after it. -/
def readBlockLines (folded : Bool) (indent : Nat) (gap : List Char) :
    Nat → Read (List Char × Option Char × List Char)
  | 0 => failure
  | fuel + 1 => do
    let k ← Read.here
    if k.rest.isEmpty || k.column ≠ indent then return ([], none, gap)
    let isIndented (k : Cursor) : Bool := (k.rest.head?.map fun c => c = ' ' || c = '\t').getD false
    let line ← Read.word (!isBreak ·)
    if (← Read.here).rest.isEmpty then return (gap ++ line, none, [])
    let b ← readBreak
    let more ← readBlockGap indent (← Read.fuel)
    let k' ← Read.here
    if k'.rest.isEmpty || k'.column ≠ indent then return (gap ++ line, some b, more)
    let joint : List Char :=
      if folded && b = '\n' && !isIndented k && !isIndented k' then (if more.isEmpty then [' '] else []) else [b]
    let (text, last, others) ← readBlockLines folded indent more fuel
    return (gap ++ line ++ joint ++ text, last, others)

/-- Reads a block of lines after its mark, inside something indented by `outer`. -/
def readBlock (folded : Bool) (outer : Int) : Read (List Char) := do
  let (chomp, deeper) ← readBlockHead
  let least := max (outer + 1) 1
  let k ← Read.here
  let indent : Nat := match deeper with
    | some n => (least + n - 1).toNat
    | none => max least.toNat (deepestIndent 0 0 k.rest)
  let gap ← readBlockGap indent (← Read.fuel)
  let (text, last, others) ← readBlockLines folded indent gap (← Read.fuel)
  match chomp, last with
  | .strip, _ => return text
  | .clip, _ => return text ++ last.toList
  | .keep, _ => return text ++ last.toList ++ others

end FluentShift.Yaml
