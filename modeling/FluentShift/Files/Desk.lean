import FluentShift.Files.Retry
import FluentShift.Files.System

/-!
# FluentShift.Files.Desk - work on files

`Work` changes a disk, writes a log and may fail; what it changed and wrote before a failure stays.  What the system
allows may change from one attempt at an operation to the next.
-/

namespace FluentShift.Files

/-- What work on files is done with: a disk and a log, the system, and how many attempts were made so far. -/
structure Desk where
  disk : Disk
  log : Log
  system : System
  attempts : Nat

/-- A desk with a disk on which nothing was tried yet. -/
def Desk.start (system : System) (d : Disk) : Desk := ⟨d, [], system, 0⟩

/-- Work that changes files, logs and may fail. -/
abbrev Work := ExceptT Failure (StateM Desk)

namespace Work

/-- Writes a line of the log. -/
def log (level : Level) (text : String) : Work Unit :=
  modifyThe Desk fun k => { k with log := k.log ++ [⟨level, text⟩] }

/-- The disk as it is. -/
def disk : Work Disk := do return (← getThe Desk).disk

/-- Work that needs no disk. -/
def ofRun {α : Type} (r : Run α) : Work α := do
  let (answer, lines) := r.outcome
  modifyThe Desk fun k => { k with log := k.log ++ lines }
  match answer with
  | .ok a => pure a
  | .error f => throw f

/-- Something that fails or gives a value. -/
def ofExcept {α : Type} (e : Except Failure α) : Work α :=
  match e with
  | .ok a => pure a
  | .error f => throw f

/-- One attempt, after a number of others: the system answers it as it answers the attempt with that number. -/
def attempt {α : Type} (system : System) (act : Answers → Disk → Except Failure α × Disk) (s : Disk × Nat) :
    Except Failure α × Disk × Nat :=
  let r := act (system.answers s.2) s.1
  (r.1, r.2, s.2 + 1)

/-- An operation that is tried again when the system refuses it. -/
def retrying {α : Type} (operation path : String) (retries : Int) (act : Answers → Disk → Except Failure α × Disk) :
    Work α := do
  let k ← getThe Desk
  let r := retry ⟨operation, path⟩ retries (attempt k.system act) (k.disk, k.attempts)
  set { k with disk := r.state.1, log := k.log ++ r.lines, attempts := r.state.2 }
  ofExcept r.answer

end Work

end FluentShift.Files
