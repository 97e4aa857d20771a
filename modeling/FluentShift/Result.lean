import FluentShift.Failure
import FluentShift.Value.Text

/-!
# FluentShift.Result - what an operation came to

A `Result` says how an operation went, and carries what it gave, why it failed, what is worth a warning and what else is
known about it.  A success has no failure, and an error has no data.
-/

namespace FluentShift

/-- How an operation went. -/
inductive Status where
  | success
  | warning
  | error
  | skipped
  deriving DecidableEq, Repr, Inhabited

/-- The word for a status. -/
def Status.label : Status → String
  | .success => "success"
  | .warning => "warning"
  | .error => "error"
  | .skipped => "skipped"

/-- The status with a word. -/
def Status.ofLabel? (label : String) : Option Status :=
  [success, warning, error, skipped].find? (·.label = label)

/-- What else is known about a result: values under keys, each key once, oldest first. -/
abbrev Metadata := List (String × Value)

namespace Metadata

/-- The value of a key. -/
def get? (m : Metadata) (key : String) : Option Value := m.lookup key

/-- Metadata with a key set: in its old place, or at the end. -/
def put (m : Metadata) (key : String) (v : Value) : Metadata :=
  if (m.lookup key).isSome then m.map fun e => if e.1 = key then (key, v) else e else m ++ [(key, v)]

/-- Metadata laid over other metadata. -/
def merge (m upper : Metadata) : Metadata := upper.foldl (fun m e => m.put e.1 e.2) m

end Metadata

/-- What an operation came to. -/
structure Result (α : Type) where
  status : Status
  data : Option α
  error : Option Failure
  warnings : List String
  metadata : Metadata
  /-- A success has no failure. -/
  flawless : status = .success → error.isNone = true
  /-- An error has no data. -/
  dataless : status = .error → data.isNone = true

namespace Result

variable {α β : Type}

/-! ### Making results -/

/-- A result of given parts, if they go together. -/
def make (status : Status) (data : Option α) (error : Option Failure) (warnings : List String) (metadata : Metadata) :
    Except Failure (Result α) :=
  if h : status = .success → error.isNone = true then
    if h' : status = .error → data.isNone = true then .ok ⟨status, data, error, warnings, metadata, h, h'⟩
    else .error (.mishap .value "Error results cannot have data")
  else .error (.mishap .value "Success results cannot have errors")

/-- An operation that went well, and what it gave if it gave anything. -/
def success? (data : Option α) (metadata : Metadata) : Result α :=
  ⟨.success, data, none, [], metadata, fun _ => rfl, nofun⟩

/-- An operation that went well. -/
def success (data : α) (metadata : Metadata) : Result α := success? (some data) metadata

/-- An operation that failed, and why if that is known. -/
def failure? (error : Option Failure) (metadata : Metadata) : Result α :=
  ⟨.error, none, error, [], metadata, nofun, fun _ => rfl⟩

/-- An operation that failed. -/
def failure (error : Failure) (metadata : Metadata) : Result α := failure? (some error) metadata

/-- An operation that went well with warnings, and what it gave if it gave anything. -/
def warning? (data : Option α) (warnings : List String) (metadata : Metadata) : Result α :=
  ⟨.warning, data, none, warnings, metadata, nofun, nofun⟩

/-- An operation that went well with warnings. -/
def warning (data : α) (warnings : List String) (metadata : Metadata) : Result α :=
  warning? (some data) warnings metadata

/-- An operation that was not done, and the reason. -/
def skipped (reason : Value) (metadata : Metadata) : Result α :=
  ⟨.skipped, none, none, [], metadata.put "reason" reason, nofun, nofun⟩

/-! ### Asking -/

/-- Whether the operation failed. -/
def isError (r : Result α) : Bool := r.status = .error

/-- Whether the operation was not done. -/
def isSkipped (r : Result α) : Bool := r.status = .skipped

/-- Whether there may be data. -/
def isOk (r : Result α) : Bool := r.status = .success || r.status = .warning

/-- The data, or why there is none. -/
def unwrap (r : Result α) : Except Failure α :=
  if r.isError then .error (r.error.getD (.mishap .state "Result contains error"))
  else if r.isSkipped then .error (.mishap .state "Result was skipped")
  else
    match r.data with
    | some a => .ok a
    | none => .error (.mishap .state "Result contains no data")

/-- The data, or something else where there is none. -/
def unwrapOr (r : Result α) (other : α) : α :=
  if r.isOk then r.data.getD other else other

/-! ### Going on -/

/-- A result with the status that its warnings ask for. -/
def finish (data : Option α) (warnings : List String) (metadata : Metadata) : Result α :=
  if warnings.isEmpty then success? data metadata else warning? data warnings metadata

/-- A failed or skipped result without its data. -/
def withoutData (r : Result α) : Result β :=
  ⟨r.status, none, r.error, r.warnings, r.metadata, r.flawless, fun _ => rfl⟩

/-- Goes on with the data; failed and skipped results stay as they are. -/
def map (f : α → Except Failure (Option β)) (r : Result α) : Result β :=
  if r.isError || r.isSkipped then r.withoutData
  else
    match r.data with
    | none => failure (.mishap .value "Cannot map over None data") r.metadata
    | some a =>
      match f a with
      | .error e => failure e r.metadata
      | .ok b => finish b r.warnings r.metadata

/-- A result with more metadata. -/
def withMetadata (r : Result α) (key : String) (v : Value) : Result α :=
  { r with metadata := r.metadata.put key v }

/-! ### Text -/

/-- A result in one line, given how its data is written. -/
def text (shown : α → String) (r : Result α) : String :=
  let data := (r.data.map shown).getD "None"
  match r.status with
  | .success => "Result(success, data=" ++ data ++ ")"
  | .error => "Result(error, error=" ++ (r.error.map Failure.message).getD "None" ++ ")"
  | .warning => "Result(warning, data=" ++ data ++ ", warnings=" ++ (Value.ofTexts r.warnings).written ++ ")"
  | .skipped => "Result(skipped, metadata=" ++ (Value.record r.metadata).written ++ ")"

end Result

end FluentShift
