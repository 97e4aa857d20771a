import FluentShift.Failure

/-!
# FluentShift.Log - work that writes a log and may fail

A `Run` keeps what was logged before a failure.
-/

namespace FluentShift

/-- How much a line of the log matters. -/
inductive Level where
  | debug
  | info
  | warning
  | error
  deriving DecidableEq, Repr, Inhabited

namespace Level

/-- All levels, from the most talkative on. -/
def all : List Level := [debug, info, warning, error]

/-- The name of a level. -/
def label : Level → String
  | debug => "DEBUG"
  | info => "INFO"
  | warning => "WARNING"
  | error => "ERROR"

/-- The level with a name. -/
def ofLabel? (label : String) : Option Level := all.find? (·.label = label)

/-- How talkative a log of a level is: it shows that level and those that matter more. -/
def shows (least level : Level) : Bool := (all.dropWhile (· ≠ least)).contains level

end Level

/-- A line of the log. -/
structure LogLine where
  level : Level
  text : String
  deriving DecidableEq, Repr, Inhabited

/-- The lines written so far, in order. -/
abbrev Log := List LogLine

/-- Work that logs and may fail. -/
abbrev Run := ExceptT Failure (StateM Log)

namespace Run

/-- Writes a line. -/
def log (level : Level) (text : String) : Run Unit :=
  modifyThe Log (· ++ [⟨level, text⟩])

/-- What the work gives, without its log. -/
def value {α : Type} (r : Run α) : Except Failure α :=
  (StateT.run r []).1

/-- What the work gives, and the lines it wrote. -/
def outcome {α : Type} (r : Run α) : Except Failure α × Log :=
  StateT.run r []

/-- Work that only fails or gives a value. -/
def ofExcept {α : Type} (e : Except Failure α) : Run α :=
  match e with
  | .ok a => pure a
  | .error f => throw f

end Run

end FluentShift
