import FluentShift.Log

/-!
# FluentShift.Files.Retry - trying again

An operation that the system refused is tried again, except when something was not there: that will not come back by
itself.
-/

namespace FluentShift.Files

/-- Whether a failure may go away by itself. -/
def isPassing (f : Failure) : Bool := f.isSystem && !f.isMissing

/-- An operation on a path, for the log. -/
structure Attempted where
  operation : String
  path : String
  deriving Repr, Inhabited

/-- The line for an attempt that will be repeated. -/
def Attempted.retryLine (a : Attempted) (f : Failure) (attempt retries : Nat) : LogLine :=
  ⟨.warning, a.operation ++ " failed for " ++ a.path ++ " (" ++ f.message ++ "); retry " ++ toString attempt ++ "/" ++
    toString retries⟩

/-- The line for the last attempt. -/
def Attempted.giveUpLine (a : Attempted) (f : Failure) (attempts : Nat) : LogLine :=
  ⟨.error, a.operation ++ " failed for " ++ a.path ++ " after " ++ toString attempts ++ " attempts: " ++ f.message⟩

/-- What retrying came to: the last answer, the state after it and the lines of the log. -/
structure Retried (σ α : Type) where
  answer : Except Failure α
  state : σ
  lines : Log

/-- Tries an operation, and tries it `left` times more; `tried` attempts came before. -/
def retryFrom {σ α : Type} (a : Attempted) (act : σ → Except Failure α × σ) : Nat → Nat → σ → Retried σ α
  | left, tried, s =>
    match act s with
    | (.ok x, s') => ⟨.ok x, s', []⟩
    | (.error f, s') =>
      if !isPassing f then ⟨.error f, s', []⟩
      else
        match left with
        | 0 => ⟨.error f, s', [a.giveUpLine f (tried + 1)]⟩
        | left + 1 =>
          let r := retryFrom a act left (tried + 1) s'
          { r with lines := a.retryLine f (tried + 1) (tried + left + 1) :: r.lines }

/-- Tries an operation, and tries it again as often as the count says; a negative count is none. -/
def retry {σ α : Type} (a : Attempted) (retries : Int) (act : σ → Except Failure α × σ) (s : σ) : Retried σ α :=
  retryFrom a act retries.toNat 0 s

end FluentShift.Files
