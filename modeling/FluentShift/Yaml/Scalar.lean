import FluentShift.Failure
import FluentShift.Text.Blank
import FluentShift.Text.Quoted
import FluentShift.Yaml.Text

/-!
# FluentShift.Yaml.Scalar - the values of scalars

A plain scalar is a switch, a number, nothing or a moment if it looks like one, and a text otherwise.  A scalar can look
like something and still have no value: there is no thirteenth month.
-/

namespace FluentShift.Yaml

/-! ### Whole numbers -/

/-- A text after its sign, and whether the sign is a minus. -/
def afterSign : List Char → Bool × List Char
  | '-' :: cs => (true, cs)
  | '+' :: cs => (false, cs)
  | cs => (false, cs)

/-- A number with its sign. -/
def signed (negative : Bool) (n : Int) : Int := if negative then -n else n

/-- Whether characters are digits in a base, or underscores between them. -/
def areDigits (base : Nat) (cs : List Char) : Bool :=
  !cs.isEmpty && cs.all fun c => c = '_' || (hexDigit? c).any fun d => d < base

/-- Whether characters are parts after a colon each, that count up to fifty-nine. -/
def areSixtieths : List Char → Bool
  | ':' :: c :: d :: cs =>
    if d.isDigit then '0' ≤ c && c ≤ '5' && (cs.isEmpty || areSixtieths cs)
    else c.isDigit && areSixtieths (d :: cs)
  | [':', c] => c.isDigit
  | _ => false

/-- Whether a text looks like a whole number. -/
def looksWhole (cs : List Char) : Bool :=
  match (afterSign cs).2 with
  | ['0'] => true
  | '0' :: 'b' :: ds => areDigits 2 ds
  | '0' :: 'x' :: ds => areDigits 16 ds
  | '0' :: ds => areDigits 8 ds
  | c :: ds =>
    let rest := ds.dropWhile fun d => d.isDigit || d = '_'
    c.isDigit && (rest.isEmpty || areSixtieths rest)
  | [] => false

/-- The most digits that a decimal number may have. -/
def mostDigits : Nat := 4300

/-- The number that digits make in a base. -/
def inBase (base : Nat) (ds : List Char) : Nat :=
  ds.foldl (fun n c => n * base + (hexDigit? c).getD 0) 0

/-- The letters that mark a base. -/
def baseMarks (base : Nat) : List Char :=
  match base with
  | 2 => ['b', 'B']
  | 8 => ['o', 'O']
  | 16 => ['x', 'X']
  | _ => []

/-- Digits without the mark of their base. -/
def afterMark (base : Nat) : List Char → List Char
  | '0' :: c :: ds => if (baseMarks base).contains c then ds else '0' :: c :: ds
  | ds => ds

/-- The whole number that is written in a base. -/
def wholeInBase (base : Nat) (cs : List Char) : Except Fault Int :=
  let (negative, ds) := afterSign (Text.trimWhiteSpace (String.ofList cs)).toList
  let ds := afterMark base ds
  if ds.contains '_' || !areDigits base ds then
    noValue .value ("invalid literal for int() with base " ++ toString base ++ ": " ++ Text.quoted (String.ofList cs))
  else if base = 10 && mostDigits < ds.length then
    noValue .value ("Exceeds the limit (" ++ toString mostDigits ++
      " digits) for integer string conversion: value has " ++ toString ds.length ++
      " digits; use sys.set_int_max_str_digits() to increase the limit")
  else .ok (signed negative (inBase base ds))

/-- A text cut at its colons. -/
def splitAtColons (cs : List Char) : List (List Char) :=
  ((String.ofList cs).splitOn ":").map String.toList

/-- The value of a whole number. -/
def wholeNumber (text : String) : Except Fault Value := do
  let (negative, cs) := afterSign (text.toList.filter (· ≠ '_'))
  let n ← match cs with
    | [] => noValue .index "string index out of range"
    | ['0'] => pure 0
    | '0' :: 'b' :: ds => wholeInBase 2 ds
    | '0' :: 'x' :: ds => wholeInBase 16 ds
    | '0' :: _ => wholeInBase 8 cs
    | _ => do
      let parts ← (splitAtColons cs).mapM (wholeInBase 10)
      pure (parts.foldl (fun n part => n * 60 + part) 0)
  return .int (signed negative n)

/-! ### Other numbers -/

/-- A text after its digits, if it starts with one; underscores may stand between them. -/
def afterDigits? (cs : List Char) : Option (List Char) :=
  match cs with
  | c :: rest => if c.isDigit then some (rest.dropWhile fun d => d.isDigit || d = '_') else none
  | [] => none

/-- Whether a text is an exponent with its sign, or empty. -/
def isExponent : List Char → Bool
  | [] => true
  | e :: s :: ds => (e = 'e' || e = 'E') && (s = '+' || s = '-') && !ds.isEmpty && ds.all Char.isDigit
  | _ => false

/-- Whether a text looks like a number with a point. -/
def looksReal (cs : List Char) : Bool :=
  let rest := (afterSign cs).2
  let infinite := [".inf", ".Inf", ".INF"].contains (String.ofList rest)
  let undefined_ := [".nan", ".NaN", ".NAN"].contains (String.ofList cs)
  let digitsAndPoint := match afterDigits? rest with
    | some ('.' :: more) => isExponent (more.dropWhile fun d => d.isDigit || d = '_')
    | some more =>
      areSixtieths (more.takeWhile (· ≠ '.')) &&
        (match more.dropWhile (· ≠ '.') with
         | '.' :: ds => ds.all fun d => d.isDigit || d = '_'
         | _ => false)
    | none => false
  let pointFirst := match cs with
    | '.' :: more => ((afterDigits? more).map isExponent).getD false
    | _ => false
  infinite || undefined_ || digitsAndPoint || pointFirst

/-- The number `digits * 10 ^ exponent`; what is too large is infinite, and what is too small is zero. -/
def scaled (digits : Nat) (exponent : Int) : Value :=
  let size : Int := (toString digits).length + exponent
  if digits = 0 || size < -330 then .real 0 0
  else if 310 < size then .odd "inf"
  else if 0 ≤ exponent then .real (digits * Value.powerOfTen exponent.toNat) 0
  else .real digits exponent.natAbs

/-- A number with the opposite sign. -/
def opposite : Value → Value
  | .real d p => .real (-d) p
  | .odd "inf" => .odd "-inf"
  | v => v

/-- The exponent of a number, or zero where none is written. -/
def exponent? : List Char → Option Int
  | [] => some 0
  | e :: cs =>
    let (negative, ds) := afterSign cs
    if e = 'e' && !ds.isEmpty && ds.all Char.isDigit then some (signed negative (inBase 10 ds)) else none

/-- The number that a text without a sign writes. -/
def unsigned? (cs : List Char) : Option Value :=
  if ["inf", "infinity"].contains (String.ofList cs) then some (.odd "inf")
  else if cs = ['n', 'a', 'n'] then some (.odd "nan")
  else
    let whole := cs.takeWhile Char.isDigit
    let rest := cs.drop whole.length
    let fraction := if rest.head? = some '.' then (rest.drop 1).takeWhile Char.isDigit else []
    let rest := if rest.head? = some '.' then rest.drop (fraction.length + 1) else rest
    if whole.isEmpty && fraction.isEmpty then none
    else (exponent? rest).map fun e => scaled (inBase 10 (whole ++ fraction)) (e - fraction.length)

/-- The number that a text writes. -/
def realInBaseTen (cs : List Char) : Except Fault Value :=
  let (negative, rest) := afterSign (Text.trimWhiteSpace (String.ofList cs)).toList
  match unsigned? rest with
  | some v => .ok (if negative then opposite v else v)
  | none => noValue .value ("could not convert string to float: " ++ Text.quoted (String.ofList cs))

/-- Sixty times a number and another one. -/
def sixtyTimesPlus (a b : Value) : Value :=
  match a, b with
  | .real m p, .real n q => .real (m * 60 * Value.powerOfTen q + n * Value.powerOfTen p) (p + q)
  | .odd _, _ => a
  | _, _ => b

/-- The most parts between colons that a number with a point may have: the next power of sixty is too large for one. -/
def mostSixtieths : Nat := 174

/-- The value of a number with a point. -/
def realNumber (text : String) : Except Fault Value := do
  let cs := (text.toList.filter (· ≠ '_')).map Char.toLower
  if cs.isEmpty then noValue .index "string index out of range"
  let (negative, cs) := afterSign cs
  let v ←
    if cs = ".inf".toList then pure (.odd "inf")
    else if cs = ".nan".toList then pure (.odd "nan")
    else do
      let parts ← (splitAtColons cs).mapM realInBaseTen
      if mostSixtieths < parts.length then noValue .overflow "int too large to convert to float"
      pure (match parts with
        | first :: others => others.foldl sixtyTimesPlus first
        | [] => .real 0 0)
  return if negative then opposite v else v

/-! ### Moments -/

/-- Reading in a text without lines. -/
abbrev Part := StateT (List Char) Option

/-- Reads at least `least` and at most `most` digits as a number. -/
def partNumber (least most : Nat) : Part Nat := do
  let ds := ((← get).take most).takeWhile Char.isDigit
  if ds.length < least then failure
  modify (·.drop ds.length)
  return inBase 10 ds

/-- Reads one of some characters. -/
def partMark (marks : List Char) : Part Unit := do
  match (← get).head? with
  | some c => if marks.contains c then modify (·.drop 1) else failure
  | none => failure

/-- Moves on over characters. -/
def partSkip (p : Char → Bool) : Part Unit := modify (·.dropWhile p)

/-- The time of a moment, and how many minutes its zone is ahead. -/
structure Clock where
  hour : Nat
  minute : Nat
  second : Nat
  zone : Int
  deriving DecidableEq, Repr, Inhabited

/-- A moment as it is written; it may be only a day. -/
structure Moment where
  year : Nat
  month : Nat
  day : Nat
  clock? : Option Clock
  deriving DecidableEq, Repr, Inhabited

/-- Reads how many minutes a zone is ahead. -/
def partZone : Part Int := do
  let behind := (← get).head? = some '-'
  partMark ['+', '-']
  let hours ← partNumber 1 2
  let minutes ← if (← get).isEmpty then pure 0 else do partMark [':']; partNumber 2 2
  return signed behind (hours * 60 + minutes : Nat)

/-- Reads the time of a moment up to its end. -/
def partClock : Part Clock := do
  match (← get).head? with
  | some c => if c = 'T' || c = 't' then modify (·.drop 1) else do partMark [' ', '\t']; partSkip fun c => c = ' ' || c = '\t'
  | none => failure
  let hour ← partNumber 1 2
  partMark [':']
  let minute ← partNumber 2 2
  partMark [':']
  let second ← partNumber 2 2
  if (← get).head? = some '.' then
    partMark ['.']
    partSkip Char.isDigit
  let zone ←
    if (← get).isEmpty then pure 0
    else do
      partSkip fun c => c = ' ' || c = '\t'
      if (← get).head? = some 'Z' then do partMark ['Z']; pure 0 else partZone
  if (← get).isEmpty then return ⟨hour, minute, second, zone⟩ else failure

/-- Reads a moment; `short` allows a day to have fewer digits. -/
def partMoment (short : Bool) : Part Moment := do
  let length := (← get).length
  let year ← partNumber 4 4
  partMark ['-']
  let month ← partNumber 1 2
  partMark ['-']
  let day ← partNumber 1 2
  if (← get).isEmpty then
    if short || length = 10 then return ⟨year, month, day, none⟩ else failure
  else return ⟨year, month, day, some (← partClock)⟩

/-- The parts of a moment. -/
def moment? (short : Bool) (text : String) : Option Moment := ((partMoment short).run text.toList).map (·.1)

/-- How many days a month has. -/
def daysIn (year month : Nat) : Nat :=
  if month = 2 then if year % 4 = 0 && (year % 100 ≠ 0 || year % 400 = 0) then 29 else 28
  else if [4, 6, 9, 11].contains month then 30 else 31

/-- The minutes of a day. -/
def minutesOfDay : Int := 1440

/-- How a number of minutes is written in days and seconds. -/
def spanText (minutes : Int) : String :=
  let seconds := minutes % minutesOfDay * 60
  "datetime.timedelta(days=" ++ toString (minutes / minutesOfDay) ++
    (if seconds = 0 then "" else ", seconds=" ++ toString seconds) ++ ")"

/-- Checks that a zone is less than a day away. -/
def checkZone (zone : Int) : Except Fault Unit :=
  if -minutesOfDay < zone && zone < minutesOfDay then .ok ()
  else noValue .value
    ("offset must be a timedelta strictly between -timedelta(hours=24) and timedelta(hours=24), not " ++
      spanText zone ++ ".")

/-- Checks that there is such a day. -/
def checkDay (year month day : Nat) : Except Fault Unit :=
  if year = 0 then noValue .value "year 0 is out of range"
  else if month = 0 || 12 < month then noValue .value "month must be in 1..12"
  else if day = 0 || daysIn year month < day then noValue .value "day is out of range for month"
  else .ok ()

/-- Checks that there is such a time. -/
def checkTime (c : Clock) : Except Fault Unit :=
  if 23 < c.hour then noValue .value "hour must be in 0..23"
  else if 59 < c.minute then noValue .value "minute must be in 0..59"
  else if 59 < c.second then noValue .value "second must be in 0..59"
  else .ok ()

/-- The value of a moment; there must be such a day and such a time. -/
def moment (text : String) : Except Fault Value :=
  match moment? true text with
  | some m => do
    checkZone ((m.clock?.map Clock.zone).getD 0)
    checkDay m.year m.month m.day
    if let some c := m.clock? then checkTime c
    return .moment text
  | none => noValue .attribute "this is no moment"

/-! ### Plain scalars -/

/-- The words for on and for off. -/
def switchWord? (text : String) : Option Bool :=
  [("yes", true), ("no", false), ("true", true), ("false", false), ("on", true), ("off", false)].lookup
    (String.ofList (text.toList.map Char.toLower))

/-- Whether a word is written in small letters, in capitals, or with one capital in front. -/
def isEvenlyCased (text : String) : Bool :=
  let cs := text.toList
  cs.all Char.isLower || cs.all Char.isUpper || (cs.take 1).all Char.isUpper && (cs.drop 1).all Char.isLower

/-- The value of a plain scalar. -/
def plainValue (text : String) : Except Fault Value :=
  let cs := text.toList
  match (if isEvenlyCased text then switchWord? text else none) with
  | some b => .ok (.bool b)
  | none =>
    -- the forms overlap, and the first one that fits counts
    if looksReal cs then realNumber text
    else if looksWhole cs then wholeNumber text
    else if ["", "~", "null", "Null", "NULL"].contains text then .ok .null
    else if (moment? false text).isSome then moment text
    else if text = "=" || text = "<<" then .error .malformed
    else .ok (.text text)

end FluentShift.Yaml
