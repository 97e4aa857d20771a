import FluentShift.Text.Identifier
import FluentShift.Source.Tree

/-!
# FluentShift.Source.Lexeme - cutting a text into leaves

`lexemes` cuts a text into leaves, losing nothing: every rule below only says how many characters the next leaf
takes, and the leaf is exactly those characters.  What the next leaf may be depends on the open brackets and template
strings, kept as a stack of `Mode`s.

* Numbers: decimal, hexadecimal, octal, binary, real and imaginary, single underscores between digits; a decimal
  integer has no leading zeros.
* Strings: the prefixes `b`, `u`, `r`, `f`, `t` and their pairs with `r`; one or three quotes.
* Template strings (`f`, `t`) are cut into an opening, literal fragments, replacement fields and a closing.
* A line break inside brackets is trivia, elsewhere it may end a statement (`Layout` decides).
-/

namespace FluentShift.Source

/-- Why a text has no leaves. -/
inductive LexFault where
  | badCharacter
  | badNumber
  | unterminatedString
  | bracketMismatch
  | danglingJoint
  deriving DecidableEq, Repr

/-- The quoting of a template string. -/
structure Quote where
  char : Char
  triple : Bool
  raw : Bool
  deriving DecidableEq, Repr

/-- What is open at a place of the text. -/
inductive Mode where
  /-- A bracket that `close` closes. -/
  | bracket (close : Char)
  /-- The literal part of a template string. -/
  | literal (q : Quote)
  /-- A replacement field of a template string. -/
  | field (q : Quote)
  /-- The format of a replacement field, after its colon. -/
  | format (q : Quote)
  deriving DecidableEq, Repr

/-- The next leaf: what it is, how many characters it takes and what is open after it. -/
structure Cut where
  kind : LeafKind
  length : Nat
  modes : List Mode

/-! ### Runs of characters -/

/-- How many characters from the start on satisfy `p`. -/
def runLength (p : Char → Bool) : List Char → Nat
  | [] => 0
  | c :: cs => if p c then runLength p cs + 1 else 0

/-- The length of a run of digits with single underscores between them; none when an underscore stands alone. -/
def digitsLength (digit : Char → Bool) : List Char → Option Nat
  | [] => some 0
  | c :: cs =>
    if digit c then (digitsLength digit cs).map (· + 1)
    else if c = '_' then
      match cs with
      | d :: _ => if digit d then (digitsLength digit cs).map (· + 1) else none
      | [] => none
    else some 0

/-- The length of a line break at the start, 0 if there is none. -/
def breakLength : List Char → Nat
  | '\r' :: '\n' :: _ => 2
  | '\r' :: _ => 1
  | '\n' :: _ => 1
  | _ => 0

/-- Spaces, tabs and form feeds separate tokens on a line. -/
def isBlank (c : Char) : Bool :=
  c = ' ' || c = '\t' || c = '\x0c'

/-- Whether `c` breaks a line. -/
def isBreak (c : Char) : Bool :=
  c = '\n' || c = '\r'

/-! ### Numbers -/

/-- Digits of base sixteen. -/
def isHexDigit (c : Char) : Bool :=
  c.isDigit || ('a' ≤ c && c ≤ 'f') || ('A' ≤ c && c ≤ 'F')

/-- The length of an exponent such as `e-10`: none when a sign has no digits, 0 when there is no exponent. -/
def exponentLength : List Char → Option Nat
  | e :: cs =>
    if e = 'e' || e = 'E' then
      match cs with
      | s :: d :: ds =>
        if s = '+' || s = '-' then
          if d.isDigit then (digitsLength Char.isDigit (d :: ds)).map (· + 2) else none
        else if s.isDigit then (digitsLength Char.isDigit cs).map (· + 1) else some 0
      | [s] => if s = '+' || s = '-' then none else if s.isDigit then some 2 else some 0
      | [] => some 0
    else some 0
  | [] => some 0

/-- A number whose first `n` characters are read: an exponent and the imaginary mark may follow. -/
def numberTail (kind : LeafKind) (n : Nat) (rest : List Char) : Option (LeafKind × Nat) := do
  let e ← exponentLength rest
  let kind := if e = 0 then kind else .real
  match rest.drop e with
  | j :: _ => if j = 'j' || j = 'J' then some (.imaginary, n + e + 1) else some (kind, n + e)
  | [] => some (kind, n + e)

/-- A number after its integer part of `n` characters: a fraction may follow. -/
def fractionTail (n : Nat) (rest : List Char) : Option (LeafKind × Nat) :=
  match rest with
  | '.' :: cs => do
    let d ← match cs with
      | c :: _ => if c.isDigit then digitsLength Char.isDigit cs else some 0
      | [] => some 0
    numberTail .real (n + 1 + d) (cs.drop d)
  | _ => numberTail .integer n rest

/-- An integer in another base, after a prefix of two characters. -/
def basedInteger (digit : Char → Bool) (cs : List Char) : Option (LeafKind × Nat) := do
  let d ← digitsLength digit cs
  if d = 0 then none
  match cs.drop d with
  | c :: _ => if c.isDigit then none else some (.integer, d + 2)
  | [] => some (.integer, d + 2)

/-- The number at the start of a text that starts with a digit, or with a point and a digit. -/
def numberCut (cs : List Char) : Option (LeafKind × Nat) :=
  match cs with
  | '.' :: _ => fractionTail 0 cs
  | '0' :: x :: rest =>
    if x = 'x' || x = 'X' then basedInteger isHexDigit rest
    else if x = 'o' || x = 'O' then basedInteger (fun c => '0' ≤ c && c ≤ '7') rest
    else if x = 'b' || x = 'B' then basedInteger (fun c => c = '0' || c = '1') rest
    else do
      let d ← digitsLength Char.isDigit cs
      let (kind, n) ← fractionTail d (cs.drop d)
      -- leading zeros are for real and imaginary numbers, and for zero itself
      if kind = .integer && (cs.take d).any (fun c => c ≠ '0' && c ≠ '_') then none
      return (kind, n)
  | _ => do
    let d ← digitsLength Char.isDigit cs
    fractionTail d (cs.drop d)

/-! ### Strings -/

/-- The letters before the quote of a string, if the text starts with a string. -/
def stringPrefix? (cs : List Char) : Option (List Char) :=
  let letters := cs.takeWhile Char.isAlpha
  match cs.drop letters.length with
  | q :: _ =>
    let low := letters.map Char.toLower
    if (q = '"' || q = '\'') &&
        ["", "b", "u", "r", "f", "t", "br", "rb", "fr", "rf", "tr", "rt"].contains (String.ofList low) then
      some low
    else none
  | [] => none

/-- The length of the rest of a string up to and with its closing quote, on one line. -/
def singleEnd (q : Char) : List Char → Option Nat
  | [] => none
  | '\\' :: '\r' :: '\n' :: cs => (singleEnd q cs).map (· + 3)
  | '\\' :: _ :: cs => (singleEnd q cs).map (· + 2)
  | c :: cs => if c = q then some 1 else if isBreak c then none else (singleEnd q cs).map (· + 1)

/-- The length of the rest of a string up to and with its three closing quotes. -/
def tripleEnd (q : Char) : List Char → Option Nat
  | [] => none
  | '\\' :: _ :: cs => (tripleEnd q cs).map (· + 2)
  | c :: cs => if c = q && cs.take 2 = [q, q] then some 3 else (tripleEnd q cs).map (· + 1)

/-- Whether the text starts with the closing quotes of a template string. -/
def closes (q : Quote) (cs : List Char) : Bool :=
  if q.triple then cs.take 3 = [q.char, q.char, q.char] else cs.take 1 = [q.char]

/-- The length of the literal text of a template string up to a brace or its closing quotes.  Doubled braces and, in
text that is not raw, character names belong to the text; an escaped quote does not close. -/
def literalLength (q : Quote) : Nat → List Char → Option Nat
  | 0, _ => none
  | _, [] => none
  | fuel + 1, c :: cs =>
    if closes q (c :: cs) then some 0
    else if c = '\\' then
      match cs with
      | [] => none
      | d :: ds =>
        if d = 'N' && !q.raw && ds.take 1 = ['{'] then
          let n := runLength (fun x => x ≠ '}') ds
          (literalLength q fuel (ds.drop (n + 1))).map (· + n + 3)
        else if d = '{' || d = '}' then (literalLength q fuel cs).map (· + 1)
        else if d = '\r' && ds.take 1 = ['\n'] then (literalLength q fuel (ds.drop 1)).map (· + 3)
        else (literalLength q fuel ds).map (· + 2)
    else if c = '{' || c = '}' then
      if cs.take 1 = [c] then (literalLength q fuel (cs.drop 1)).map (· + 2) else some 0
    else if isBreak c && !q.triple then none
    else (literalLength q fuel cs).map (· + 1)

/-- The length of the format text of a replacement field up to a brace. -/
def formatLength (q : Quote) : List Char → Option Nat
  | [] => none
  | c :: cs =>
    if c = '{' || c = '}' then some 0
    else if closes q (c :: cs) || (isBreak c && !q.triple) then none
    else (formatLength q cs).map (· + 1)

/-! ### Marks -/

/-- The words that are no names. -/
def keywords : List String :=
  ["and", "as", "assert", "async", "await", "break", "class", "continue", "def", "del", "elif", "else", "except",
   "finally", "for", "from", "global", "if", "import", "in", "is", "lambda", "nonlocal", "not", "or", "pass", "raise",
   "return", "try", "while", "with", "yield"]

/-- The names with a fixed value, which nothing can bind. -/
def constantNames : List String :=
  ["True", "False", "None"]

/-- The operators of more than one character, longest first. -/
def longOperators : List (List Char) :=
  ["**=", "//=", ">>=", "<<=", "...", "!=", "==", "<=", ">=", "<>", "->", ":=", "+=", "-=", "*=", "/=", "%=", "&=",
   "|=", "^=", "@=", "**", "//", "<<", ">>"].map String.toList

/-- The operators and separators of one character; brackets are cut by their own rule. -/
def shortOperators : List Char :=
  "+-*/%@&|^~<>,:.;=!".toList

/-- The length of the operator at the start, 0 if there is none. -/
def operatorLength (cs : List Char) : Nat :=
  match longOperators.find? (fun o => cs.take o.length = o) with
  | some o => o.length
  | none => if shortOperators.any (fun o => cs.take 1 = [o]) then 1 else 0

/-! ### The next leaf -/

/-- The next leaf of a literal part. -/
def cutLiteral (q : Quote) (modes : List Mode) (cs : List Char) : Except LexFault Cut :=
  if closes q cs then .ok ⟨.templateClose, if q.triple then 3 else 1, modes.drop 1⟩
  else
    match literalLength q (cs.length + 1) cs with
    | none => .error .unterminatedString
    | some 0 => if cs.take 1 = ['{'] then .ok ⟨.mark, 1, .field q :: modes⟩ else .error .badCharacter
    | some n => .ok ⟨.fragment, n, modes⟩

/-- The next leaf of a format. -/
def cutFormat (q : Quote) (modes : List Mode) (cs : List Char) : Except LexFault Cut :=
  match formatLength q cs with
  | none => .error .unterminatedString
  -- a closing brace ends the format and its field
  | some 0 => if cs.take 1 = ['{'] then .ok ⟨.mark, 1, .field q :: modes⟩ else .ok ⟨.mark, 1, modes.drop 2⟩
  | some n => .ok ⟨.fragment, n, modes⟩

/-- The next leaf when the text starts with a string. -/
def cutString (low : List Char) (modes : List Mode) (cs : List Char) : Except LexFault Cut :=
  let rest := cs.drop low.length
  let q := rest.headD '"'
  let triple := rest.take 3 = [q, q, q]
  let n := low.length + if triple then 3 else 1
  if low.any (fun c => c = 'f' || c = 't') then
    .ok ⟨.templateOpen, n, .literal ⟨q, triple, low.contains 'r'⟩ :: modes⟩
  else
    match (if triple then tripleEnd q (cs.drop n) else singleEnd q (cs.drop n)) with
    | some e => .ok ⟨.string, n + e, modes⟩
    | none => .error .unterminatedString

/-- The next leaf when the text starts with `c` that neither starts a word nor a string. -/
def cutSymbol (modes : List Mode) (c : Char) (cs : List Char) : Except LexFault Cut :=
  -- right inside a field a colon starts its format
  let inField := match modes with
    | .field _ :: _ => true
    | _ => false
  if c = '(' then .ok ⟨.mark, 1, .bracket ')' :: modes⟩
  else if c = '[' then .ok ⟨.mark, 1, .bracket ']' :: modes⟩
  else if c = '{' then .ok ⟨.mark, 1, .bracket '}' :: modes⟩
  else if c = ')' || c = ']' || c = '}' then
    match modes with
    | .bracket d :: ms => if c = d then .ok ⟨.mark, 1, ms⟩ else .error .bracketMismatch
    | .field _ :: ms => if c = '}' then .ok ⟨.mark, 1, ms⟩ else .error .bracketMismatch
    | _ => .error .bracketMismatch
  else if inField && c = ':' then
    match modes with
    | .field q :: _ => .ok ⟨.mark, 1, .format q :: modes⟩
    | _ => .error .badCharacter
  else
    match operatorLength (c :: cs) with
    | 0 => .error .badCharacter
    | n => .ok ⟨.mark, n, modes⟩

/-- The next leaf outside the literal parts of template strings. -/
def cutToken (modes : List Mode) (c : Char) (cs : List Char) : Except LexFault Cut :=
  let all := c :: cs
  if isBlank c then .ok ⟨.blank, runLength isBlank all, modes⟩
  else if isBreak c then .ok ⟨if modes = [] then .endOfLine else .lineBreak, breakLength all, modes⟩
  else if c = '#' then .ok ⟨.comment, runLength (fun d => !isBreak d) all, modes⟩
  else if c = '\\' then
    match breakLength cs with
    | 0 => .error .badCharacter
    | n => if cs.drop n = [] then .error .danglingJoint else .ok ⟨.joint, n + 1, modes⟩
  else if c.isDigit || (c = '.' && (cs.headD ' ').isDigit) then
    match numberCut all with
    | some (kind, n) => .ok ⟨kind, n, modes⟩
    | none => .error .badNumber
  else
    match stringPrefix? all with
    | some low => cutString low modes all
    | none =>
      if Text.isNameStart c then
        let n := runLength Text.isNameContinue all
        let kind := if keywords.contains (String.ofList (all.take n)) then .mark else .name
        .ok ⟨kind, n, modes⟩
      else cutSymbol modes c cs

/-- The next leaf of a text that is not empty. -/
def nextCut (modes : List Mode) (c : Char) (cs : List Char) : Except LexFault Cut :=
  match modes with
  | .literal q :: _ => cutLiteral q modes (c :: cs)
  | .format q :: _ => cutFormat q modes (c :: cs)
  | _ => cutToken modes c cs

/-- The leaves of a text up to what is no leaf, if there is such a thing, with `modes` open at its start. -/
def lexemesIn (modes : List Mode) (cs : List Char) : List Leaf × Option LexFault :=
  match cs with
  | [] => ([], if modes = [] then none else some .bracketMismatch)
  | c :: rest =>
    match nextCut modes c rest with
    | .error e => ([], some e)
    | .ok cut =>
      if 0 < cut.length then
        let tail := lexemesIn cut.modes ((c :: rest).drop cut.length)
        (⟨cut.kind, String.ofList ((c :: rest).take cut.length)⟩ :: tail.1, tail.2)
      else ([], some .badCharacter)
termination_by cs.length
decreasing_by simp only [List.length_drop, List.length_cons]; omega

/-- All leaves of a text. -/
def lexemes (text : String) : Except LexFault (List Leaf) :=
  match lexemesIn [] text.toList with
  | (ls, none) => .ok ls
  | (_, some e) => .error e

/-- Cutting loses nothing: the leaves of a text without faults, put together, are the text. -/
theorem lexemesIn_flatten (modes : List Mode) (cs : List Char) (h : (lexemesIn modes cs).2 = none) :
    ((lexemesIn modes cs).1.flatMap fun l => l.text.toList) = cs := by
  induction hn : cs.length using Nat.strongRecOn generalizing modes cs with
  | ind n ih =>
    unfold lexemesIn at h ⊢
    split
    · rfl
    · rename_i c rest
      split
      · rename_i heq; simp only [heq] at h; cases h
      · rename_i cut heq
        simp only [heq] at h
        split
        · rename_i hpos
          simp only [hpos, if_true] at h
          have hlt : ((c :: rest).drop cut.length).length < n := by
            rw [← hn]; simp only [List.length_drop, List.length_cons]; omega
          have := ih _ hlt cut.modes _ h rfl
          rw [List.flatMap_cons, this, String.toList_ofList, List.take_append_drop]
        · rename_i hpos; simp only [hpos, if_false] at h; cases h

/-- The leaves of a text are the text. -/
theorem flatMap_of_lexemes (text : String) (ls : List Leaf) (h : lexemes text = .ok ls) :
    (ls.flatMap fun l => l.text.toList) = text.toList := by
  unfold lexemes at h
  split at h
  · rename_i heq
    cases h
    have := lexemesIn_flatten [] text.toList (by rw [heq])
    rwa [heq] at this
  · cases h

end FluentShift.Source
