import FluentShift.Log
import FluentShift.Engine.Context

/-!
# FluentShift.Engine.Event - what happens during a run

Units announce when they start and when they are done; steps add notices about single calls.  `logLine?` is what a log
writer makes of an event.  No clock is kept: a duration is written as `<ms>`.
-/

namespace FluentShift.Engine

/-- The kinds of events. -/
inductive EventKind where
  | base
  | pipelineStarted
  | pipelineCompleted
  | stepStarted
  | stepCompleted
  | taskStarted
  | taskCompleted
  | jobStarted
  | jobCompleted
  | callRewritten
  | callSkipped
  | fault
  deriving DecidableEq, Repr, Inhabited

namespace EventKind

/-- All kinds. -/
def all : List EventKind :=
  [base, pipelineStarted, pipelineCompleted, stepStarted, stepCompleted, taskStarted, taskCompleted, jobStarted,
    jobCompleted, callRewritten, callSkipped, fault]

/-- The name of a kind. -/
def label : EventKind → String
  | base => "BaseEvent"
  | pipelineStarted => "PipelineStartedEvent"
  | pipelineCompleted => "PipelineCompletedEvent"
  | stepStarted => "StepStartedEvent"
  | stepCompleted => "StepCompletedEvent"
  | taskStarted => "TaskStartedEvent"
  | taskCompleted => "TaskCompletedEvent"
  | jobStarted => "JobStartedEvent"
  | jobCompleted => "JobCompletedEvent"
  | callRewritten => "CallRewrittenEvent"
  | callSkipped => "CallSkippedEvent"
  | fault => "ErrorEvent"

/-- The kind with a name. -/
def ofLabel? (label : String) : Option EventKind := all.find? (·.label = label)

/-- The kinds that a log writer listens to. -/
def logged : List EventKind :=
  [pipelineStarted, pipelineCompleted, stepStarted, stepCompleted, callRewritten, callSkipped, fault]

end EventKind

/-- What a step has to say about a call, or about its failure. -/
inductive Notice where
  | callRewritten (position : Option String) (shape : String) (style : Option String)
  | callSkipped (position : Option String) (reason : String)
  | fault (failure : Failure) (type component : String)
  deriving Repr, Inhabited

/-- Something that happened in a context. -/
inductive Event where
  | base
  | pipelineStarted (c : Context)
  | pipelineCompleted (c : Context) (status : Status)
  | stepStarted (c : Context) (name type : String)
  | stepCompleted (c : Context) (name type : String) (status : Status)
  | taskStarted (c : Context) (name type : String) (steps : Nat)
  | taskCompleted (c : Context) (name type : String) (status : Status)
  | jobStarted (c : Context) (name type : String) (tasks : Nat)
  | jobCompleted (c : Context) (name type : String) (status : Status)
  | notice (c : Context) (n : Notice)

namespace Event

/-- The kind of a notice. -/
def noticeKind : Notice → EventKind
  | .callRewritten .. => .callRewritten
  | .callSkipped .. => .callSkipped
  | .fault .. => .fault

/-- The kind of an event. -/
def kind : Event → EventKind
  | base => .base
  | pipelineStarted _ => .pipelineStarted
  | pipelineCompleted .. => .pipelineCompleted
  | stepStarted .. => .stepStarted
  | stepCompleted .. => .stepCompleted
  | taskStarted .. => .taskStarted
  | taskCompleted .. => .taskCompleted
  | jobStarted .. => .jobStarted
  | jobCompleted .. => .jobCompleted
  | notice _ n => noticeKind n

/-- Whether a status lets the next unit start. -/
def verdict : Status → String
  | .success | .warning => "SUCCESS"
  | .error | .skipped => "FAILED"

/-- The word for a status in the log. -/
def statusWord : Status → String
  | .success => "SUCCESS"
  | .warning => "WARNING"
  | .error => "ERROR"
  | .skipped => "SKIPPED"

/-- A position in the log. -/
def positionText (position : Option String) : String := position.getD "None"

/-- The line that a log writer makes of an event. -/
def logLine? : Event → Option LogLine
  | pipelineStarted c =>
    some ⟨.info, "Pipeline started: " ++ c.source ++ " -> " ++ c.target ++ " (run_id: " ++ c.runId ++ ")"⟩
  | pipelineCompleted _ s => some ⟨.info, "Pipeline completed in <ms>: " ++ verdict s⟩
  | stepStarted _ name type => some ⟨.debug, "Step started: " ++ name ++ " (" ++ type ++ ")"⟩
  | stepCompleted _ name _ s =>
    some ⟨.debug, "Step completed in <ms>: " ++ name ++ " (" ++ statusWord s ++ ")"⟩
  | notice c (.callRewritten p shape _) =>
    some ⟨.debug, "Rewrote call at " ++ c.source ++ ":" ++ positionText p ++ " as " ++ shape⟩
  | notice c (.callSkipped p reason) =>
    some ⟨.info, "Skipped call at " ++ c.source ++ ":" ++ positionText p ++ ": " ++ reason⟩
  | notice _ (.fault f _ component) => some ⟨.error, "Error in " ++ component ++ ": " ++ f.message⟩
  | base | taskStarted .. | taskCompleted .. | jobStarted .. | jobCompleted .. => none

/-- Checks when an event is said to have happened. -/
def checkTime : Value → Except Failure Unit
  | .int n => check (n < 0)
  | .real d _ => check (d < 0)
  | .bool _ => .ok ()
  | _ => .error (.mishap .wrongType "a point in time is a number")
where
  /-- Nothing happens before time starts. -/
  check (negative : Bool) : Except Failure Unit :=
    if negative then .error (.mishap .value "Timestamp cannot be negative") else .ok ()

end Event

end FluentShift.Engine
