import FluentShift.Files.Desk
import FluentShift.Engine.Event
import FluentShift.Rewrite.Outcome

/-!
# FluentShift.Engine.Unit - steps, tasks, jobs and pipelines

A step does one thing; a task runs steps, a job runs tasks and a pipeline runs jobs, each until one of them fails.  Data
and metadata go from one unit to the next.  A context that a task gives takes the place of the context, not of the data.

Every unit says when it starts and when it is done, also when it fails.
-/

namespace FluentShift.Engine

open FluentShift.Files

/-! ### Data -/

/-- What goes from one unit to the next. -/
inductive Payload where
  | plain (v : Value)
  | context (c : Context)
  | source (f : Source.SourceFile)
  | rewriting (o : Rewrite.Outcome)
  /-- What a step got, with the notes of its context. -/
  | observed (input : Option Payload) (notes : Metadata)

/-- The text that a payload is, if it is one. -/
def Payload.text? : Payload → Option String
  | .plain v => v.text?
  | _ => none

/-! ### Sessions -/

/-- What units are run in: a disk and a log, the events so far, and whether a log writer listens. -/
structure Session where
  desk : Desk
  events : List Event
  listening : Bool

/-- Something done in a session. -/
abbrev Act := StateM Session

namespace Act

/-- Does something in a new session with a disk, under a system. -/
def outcomeUnder {α : Type} (a : Act α) (system : System) (disk : Disk) (listening : Bool) : α × Session :=
  StateT.run a ⟨.start system disk, [], listening⟩

/-- Does something in a new session with a disk, when everything is allowed. -/
def outcome {α : Type} (a : Act α) (disk : Disk) (listening : Bool) : α × Session :=
  a.outcomeUnder .calm disk listening

/-- Writes a line of the log. -/
def log (level : Level) (text : String) : Act Unit :=
  modifyThe Session fun s => { s with desk := { s.desk with log := s.desk.log ++ [⟨level, text⟩] } }

/-- Announces an event; a log writer that listens makes a line of it. -/
def publish (e : Event) : Act Unit :=
  modifyThe Session fun s =>
    let lines := if s.listening then e.logLine?.toList else []
    { s with events := s.events ++ [e], desk := { s.desk with log := s.desk.log ++ lines } }

/-- Does work on the files of the session. -/
def work {α : Type} (w : Work α) : Act (Except Failure α) := do
  let s ← getThe Session
  let (answer, desk) := StateT.run w s.desk
  set { s with desk := desk }
  return answer

end Act

/-! ### Steps -/

/-- What a step came to, and what it has to say. -/
structure Report where
  result : Result Payload
  notices : List Notice

/-- A step: its name, the name of its type, and what it does. -/
structure Step where
  name : String
  type : String
  execute : Context → Option Payload → Work Report

/-- A report without notices. -/
def Report.ofResult (r : Result Payload) : Report := ⟨r, []⟩

/-- Runs a step.  A step that breaks off has failed. -/
def Step.run (s : Step) (c : Context) (input : Option Payload) : Act (Result Payload) := do
  Act.publish (.stepStarted c s.name s.type)
  let result ← match ← Act.work (s.execute c input) with
    | .ok report => do
      report.notices.forM fun n => Act.publish (.notice c n)
      pure report.result
    | .error f => do
      Act.log .error ("Exception in step " ++ s.name ++ ": " ++ f.message)
      pure (.failure f [("step", .text s.name), ("context", .text c.runId)])
  Act.publish (.stepCompleted c s.name s.type result.status)
  return result

/-! ### Sequences of units -/

/-- What the units of a sequence gave so far. -/
structure Tally where
  warnings : List String
  metadata : Metadata

/-- Nothing so far. -/
def Tally.empty : Tally := ⟨[], []⟩

/-- One more result. -/
def Tally.add (t : Tally) (r : Result Payload) : Tally := ⟨t.warnings ++ r.warnings, t.metadata.merge r.metadata⟩

/-- The failure of a sequence because one of its units failed. -/
def Tally.failure (t : Tally) (r : Result Payload) (otherwise : String) (where_ : Metadata) : Result Payload :=
  .failure (r.error.getD (.mishap .state otherwise)) ((t.add r).metadata.merge where_)

/-- A sequence of steps. -/
structure Task where
  name : String
  steps : List Step

/-- Runs the steps of a task from the one with number `i` on. -/
def Task.runSteps (t : Task) (c : Context) : Nat → Tally → Option Payload → List Step → Act (Result Payload)
  | _, tally, input, [] => return .finish input tally.warnings tally.metadata
  | i, tally, input, s :: ss => do
    let r ← s.run c input
    if r.isError then
      Act.log .error ("Step " ++ s.name ++ " failed, aborting task " ++ t.name)
      return tally.failure r ("Task " ++ t.name ++ " failed at step " ++ s.name)
        [("task", .text t.name), ("failed_step", .text s.name), ("step_index", .ofNat i)]
    else t.runSteps c (i + 1) (tally.add r) (r.data <|> input) ss

/-- Runs a task. -/
def Task.run (t : Task) (c : Context) (input : Option Payload) : Act (Result Payload) := do
  Act.publish (.taskStarted c t.name "Task" t.steps.length)
  let r ← t.runSteps c 0 .empty input t.steps
  Act.publish (.taskCompleted c t.name "Task" r.status)
  return r

/-- The context and the data after a unit: a context takes the place of the context, other data that of the data. -/
def handOn (c : Context) (input : Option Payload) (r : Result Payload) : Context × Option Payload :=
  match r.data with
  | some (.context c') => (c', input)
  | some p => (c, some p)
  | none => (c, input)

/-- A sequence of tasks. -/
structure Job where
  name : String
  type : String
  tasks : List Task

/-- Runs the tasks of a job from the one with number `i` on; `start` is the context that the job began with. -/
def Job.runTasks (j : Job) (start : Context) :
    Nat → Tally → Context → Option Payload → List Task → Act (Result Payload)
  | _, tally, _, input, [] => do
    let r := .finish input tally.warnings tally.metadata
    Act.publish (.jobCompleted start j.name j.type r.status)
    return r
  | i, tally, c, input, t :: ts => do
    let r ← t.run c input
    if r.isError then
      Act.log .error ("Task " ++ t.name ++ " failed, aborting job " ++ j.name)
      Act.publish (.jobCompleted start j.name j.type r.status)
      return tally.failure r ("Job " ++ j.name ++ " failed at task " ++ t.name)
        [("job", .text j.name), ("failed_task", .text t.name), ("task_index", .ofNat i)]
    else
      let (c', input') := handOn c input r
      j.runTasks start (i + 1) (tally.add r) c' input' ts

/-- Runs a job. -/
def Job.run (j : Job) (c : Context) (input : Option Payload) : Act (Result Payload) := do
  Act.publish (.jobStarted c j.name j.type j.tasks.length)
  j.runTasks c 0 .empty c input j.tasks

/-- A part of a pipeline: a job, perhaps with something done around it. -/
structure Stage where
  name : String
  run : Context → Option Payload → Act (Result Payload)

/-- A job as a part of a pipeline. -/
def Job.stage (j : Job) : Stage := ⟨j.name, j.run⟩

/-- A sequence of jobs. -/
structure Pipeline where
  name : String
  stages : List Stage

/-- Runs the jobs of a pipeline from the one with number `i` on; `start` is the context that the pipeline began with. -/
def Pipeline.runStages (p : Pipeline) (start : Context) :
    Nat → Tally → Context → Option Payload → List Stage → Act (Result Payload)
  | _, tally, _, input, [] => do
    let r := .finish input tally.warnings tally.metadata
    Act.publish (.pipelineCompleted start r.status)
    return r
  | i, tally, c, input, s :: ss => do
    let r ← s.run c input
    if r.isError then
      Act.log .error ("Job " ++ s.name ++ " failed, aborting pipeline " ++ p.name)
      Act.publish (.pipelineCompleted start r.status)
      return tally.failure r ("Pipeline " ++ p.name ++ " failed at job " ++ s.name)
        [("pipeline", .text p.name), ("failed_job", .text s.name), ("job_index", .ofNat i)]
    else
      let (c', input') := handOn c input r
      p.runStages start (i + 1) (tally.add r) c' input' ss

/-- Runs a pipeline. -/
def Pipeline.run (p : Pipeline) (c : Context) (input : Option Payload) : Act (Result Payload) := do
  Act.publish (.pipelineStarted c)
  p.runStages c 0 .empty c input p.stages

end FluentShift.Engine
