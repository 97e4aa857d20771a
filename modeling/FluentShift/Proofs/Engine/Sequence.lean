import FluentShift.Engine.Unit

/-!
# FluentShift.Proofs.Engine.Sequence - parts one after the other

A task runs its steps, a job its tasks and a pipeline its jobs in the same way: the unit says that it starts, its parts
run one after the other up to the first that fails, and the unit says that it is done.  `Sequence.run` is that way, and
`Task.run_eq`, `Job.run_eq` and `Pipeline.run_eq` say that the three go it.

No act of a unit reads an event, and each leaves the events before it where they are (`Act.Adds`).
-/

namespace FluentShift.Engine

open FluentShift.Files

/-! ### Acts -/

namespace Act

variable {α β : Type}

/-- What an act gives in a session. -/
def result (a : Act α) (σ : Session) : α := (StateT.run a σ).1

/-- The session after an act. -/
def after (a : Act α) (σ : Session) : Session := (StateT.run a σ).2

@[simp] theorem result_pure (x : α) (σ : Session) : result (pure x) σ = x := rfl

@[simp] theorem after_pure (x : α) (σ : Session) : after (pure x) σ = σ := rfl

@[simp] theorem result_bind (a : Act α) (f : α → Act β) (σ : Session) :
    result (a >>= f) σ = (f (a.result σ)).result (a.after σ) := rfl

@[simp] theorem after_bind (a : Act α) (f : α → Act β) (σ : Session) :
    after (a >>= f) σ = (f (a.result σ)).after (a.after σ) := rfl

/-- The act reads no event, and adds some behind those that there are. -/
def Adds (a : Act α) : Prop :=
  ∀ desk listening, ∃ x desk' new, ∀ events,
    StateT.run a ⟨desk, events, listening⟩ = (x, ⟨desk', events ++ new, listening⟩)

theorem adds_pure (x : α) : Adds (pure x) := fun desk _ => ⟨x, desk, [], fun events => by rw [List.append_nil]; rfl⟩

theorem Adds.bind {a : Act α} {f : α → Act β} (ha : Adds a) (hf : ∀ x, Adds (f x)) : Adds (a >>= f) := by
  intro desk listening
  obtain ⟨x, desk₁, new₁, h₁⟩ := ha desk listening
  obtain ⟨y, desk₂, new₂, h₂⟩ := hf x desk₁ listening
  refine ⟨y, desk₂, new₁ ++ new₂, fun events => ?_⟩
  show StateT.run (f (StateT.run a _).1) (StateT.run a _).2 = _
  rw [h₁, h₂, List.append_assoc]

theorem adds_publish (e : Event) : Adds (publish e) := fun desk listening =>
  ⟨(), { desk with log := desk.log ++ if listening then e.logLine?.toList else [] }, [e], fun _ => rfl⟩

theorem adds_log (level : Level) (text : String) : Adds (log level text) := fun desk _ =>
  ⟨(), { desk with log := desk.log ++ [⟨level, text⟩] }, [], fun events => by rw [List.append_nil]; rfl⟩

theorem adds_work (w : Work α) : Adds (work w) := fun desk _ =>
  ⟨(StateT.run w desk).1, (StateT.run w desk).2, [], fun events => by rw [List.append_nil]; rfl⟩

theorem adds_publishAll (c : Context) (ns : List Notice) : Adds (ns.forM fun n => publish (.notice c n)) := by
  induction ns with
  | nil => exact adds_pure _
  | cons n ns ih => exact (adds_publish _).bind fun _ => ih

/-- The events after an act begin with those before it. -/
theorem Adds.events {a : Act α} (h : Adds a) (σ : Session) : ∃ new, (a.after σ).events = σ.events ++ new := by
  obtain ⟨x, desk, new, hrun⟩ := h σ.desk σ.listening
  exact ⟨new, congrArg (fun out => out.2.events) (hrun σ.events)⟩

end Act

theorem Step.adds_run (s : Step) (c : Context) (input : Option Payload) : (s.run c input).Adds := by
  refine (Act.adds_publish _).bind fun _ => (Act.adds_work _).bind fun answer => ?_
  have hend : ∀ r : Result Payload,
      Act.Adds (do let r ← pure r; Act.publish (.stepCompleted c s.name s.type r.status); pure r) :=
    fun r => (Act.adds_pure r).bind fun r => (Act.adds_publish _).bind fun _ => Act.adds_pure _
  cases answer with
  | ok report => exact (Act.adds_publishAll _ _).bind fun _ => hend _
  | error m => exact (Act.adds_log _ _).bind fun _ => hend _

/-- The events of a step: its start, what it says, and its completion with the status that it gave. -/
theorem Step.after_run_events (s : Step) (c : Context) (input : Option Payload) (σ : Session) :
    ∃ ns : List Notice, ((s.run c input).after σ).events =
      σ.events ++ Event.stepStarted c s.name s.type :: ns.map (Event.notice c) ++
        [.stepCompleted c s.name s.type ((s.run c input).result σ).status] := by
  have hpublishAll : ∀ (ns : List Notice) (σ : Session),
      ((ns.forM fun n => Act.publish (.notice c n)).after σ).events = σ.events ++ ns.map (Event.notice c) := by
    intro ns
    induction ns with
    | nil => exact fun σ => (List.append_nil _).symm
    | cons n ns ih => exact fun σ => (ih _).trans (List.append_assoc σ.events [_] _)
  rw [run, Act.after_bind, Act.after_bind, Act.result_bind, Act.result_bind]
  generalize hwork : (Act.work (s.execute c input)).result _ = answer
  have hevents : ((Act.work (s.execute c input)).after ((Act.publish (.stepStarted c s.name s.type)).after σ)).events =
      σ.events ++ [.stepStarted c s.name s.type] := rfl
  cases answer with
  | ok report =>
    refine ⟨report.notices, ?_⟩
    show ((report.notices.forM fun n => Act.publish (.notice c n)).after _).events ++ [_] = _
    rw [hpublishAll, hevents, List.append_assoc σ.events]
    rfl
  | error f => exact ⟨[], congrArg (· ++ _) hevents⟩

/-! ### Sequences -/

/-- What is handed to a unit: the context and the data. -/
abbrev Baton := Context × Option Payload

/-- What a sequence says about a part of it that failed: a line of the log, the words for a failure that has none, and
where it stands. -/
structure Blame where
  line : String
  words : String
  place : Metadata

/-- How a unit runs its parts: how one of them is run, what is handed on after it, what is said about one that failed,
and the events around all of them. -/
structure Sequence (U : Type) where
  act : U → Baton → Act (Result Payload)
  next : Baton → Result Payload → Baton
  blame : Nat → U → Blame
  started : Context → Event
  completed : Context → Status → Event

namespace Sequence

variable {U : Type} (q : Sequence U)

/-- Runs the parts from the one with number `i` on. -/
def loop : Nat → Tally → Baton → List U → Act (Result Payload)
  | _, tally, k, [] => return .finish k.2 tally.warnings tally.metadata
  | i, tally, k, u :: us => do
    let r ← q.act u k
    if r.isError then
      Act.log .error (q.blame i u).line
      return tally.failure r (q.blame i u).words (q.blame i u).place
    else loop (i + 1) (tally.add r) (q.next k r) us

/-- Runs the parts between the two events. -/
def run (k : Baton) (us : List U) : Act (Result Payload) := do
  Act.publish (q.started k.1)
  let r ← q.loop 0 .empty k us
  Act.publish (q.completed k.1 r.status)
  return r

end Sequence

/-- How a task runs its steps. -/
def Task.sequence (t : Task) : Sequence Step where
  act s k := s.run k.1 k.2
  next k r := (k.1, r.data <|> k.2)
  blame i s := ⟨"Step " ++ s.name ++ " failed, aborting task " ++ t.name, "Task " ++ t.name ++ " failed at step " ++ s.name,
    [("task", .text t.name), ("failed_step", .text s.name), ("step_index", .ofNat i)]⟩
  started c := .taskStarted c t.name "Task" t.steps.length
  completed c := .taskCompleted c t.name "Task"

/-- How a job runs its tasks. -/
def Job.sequence (j : Job) : Sequence Task where
  act t k := t.run k.1 k.2
  next k r := handOn k.1 k.2 r
  blame i t := ⟨"Task " ++ t.name ++ " failed, aborting job " ++ j.name, "Job " ++ j.name ++ " failed at task " ++ t.name,
    [("job", .text j.name), ("failed_task", .text t.name), ("task_index", .ofNat i)]⟩
  started c := .jobStarted c j.name j.type j.tasks.length
  completed c := .jobCompleted c j.name j.type

/-- The pipeline of some jobs. -/
def Pipeline.ofJobs (name : String) (jobs : List Job) : Pipeline := ⟨name, jobs.map Job.stage⟩

/-- How a pipeline with a name runs its jobs. -/
def Pipeline.sequence (name : String) : Sequence Job where
  act j k := j.run k.1 k.2
  next k r := handOn k.1 k.2 r
  blame i j := ⟨"Job " ++ j.name ++ " failed, aborting pipeline " ++ name, "Pipeline " ++ name ++ " failed at job " ++ j.name,
    [("pipeline", .text name), ("failed_job", .text j.name), ("job_index", .ofNat i)]⟩
  started c := .pipelineStarted c
  completed c := .pipelineCompleted c

/-! ### The three loops are one -/

section Loops

variable {c : Context} {input : Option Payload}

theorem status_of_isError {r : Result Payload} (h : r.isError = true) : r.status = .error := of_decide_eq_true h

theorem Task.runSteps_eq (t : Task) (i : Nat) (tally : Tally) (input : Option Payload) (ss : List Step) :
    t.runSteps c i tally input ss = t.sequence.loop i tally (c, input) ss := by
  induction ss generalizing i tally input with
  | nil => rfl
  | cons s ss ih =>
    rw [runSteps, Sequence.loop]
    refine congrArg (s.run c input >>= ·) (funext fun r => ?_)
    rw [ih]
    rfl

/-- A task is the sequence of its steps. -/
theorem Task.run_eq (t : Task) : t.run c input = t.sequence.run (c, input) t.steps := by
  rw [run, runSteps_eq]
  rfl

theorem Job.runTasks_eq (j : Job) (start : Context) (i : Nat) (tally : Tally) (c : Context) (input : Option Payload)
    (ts : List Task) :
    j.runTasks start i tally c input ts = (do
      let r ← j.sequence.loop i tally (c, input) ts
      Act.publish (.jobCompleted start j.name j.type r.status)
      return r) := by
  induction ts generalizing i tally c input with
  | nil => rfl
  | cons t ts ih =>
    rw [runTasks, Sequence.loop, bind_assoc]
    refine congrArg (t.run c input >>= ·) (funext fun r => ?_)
    by_cases hr : r.isError = true
    · rw [if_pos hr, if_pos hr, status_of_isError hr]
      rfl
    · rw [if_neg hr, if_neg hr]
      exact ih _ _ _ _

/-- A job is the sequence of its tasks. -/
theorem Job.run_eq (j : Job) : j.run c input = j.sequence.run (c, input) j.tasks := by
  rw [run, runTasks_eq]
  rfl

theorem Pipeline.runStages_eq (p : Pipeline) (start : Context) (i : Nat) (tally : Tally) (c : Context)
    (input : Option Payload) (jobs : List Job) :
    p.runStages start i tally c input (jobs.map Job.stage) = (do
      let r ← (Pipeline.sequence p.name).loop i tally (c, input) jobs
      Act.publish (.pipelineCompleted start r.status)
      return r) := by
  induction jobs generalizing i tally c input with
  | nil => rfl
  | cons j jobs ih =>
    rw [List.map_cons, runStages, Sequence.loop, bind_assoc]
    refine congrArg (j.run c input >>= ·) (funext fun r => ?_)
    by_cases hr : r.isError = true
    · rw [if_pos hr, if_pos hr, status_of_isError hr]
      rfl
    · rw [if_neg hr, if_neg hr]
      exact ih _ _ _ _

/-- A pipeline is the sequence of its jobs. -/
theorem Pipeline.run_eq (name : String) (jobs : List Job) :
    (Pipeline.ofJobs name jobs).run c input = (Pipeline.sequence name).run (c, input) jobs := by
  rw [run, ofJobs, runStages_eq]
  rfl

end Loops

/-! ### One part more -/

namespace Sequence

variable {U : Type} {q : Sequence U} {k : Baton} {u : U} {σ : Session} (i : Nat) (tally : Tally) (us : List U)

/-- A part that fails ends the sequence. -/
theorem loop_of_fail (h : ((q.act u k).result σ).isError = true) :
    (q.loop i tally k (u :: us)).result σ =
        tally.failure ((q.act u k).result σ) (q.blame i u).words (q.blame i u).place ∧
      (q.loop i tally k (u :: us)).after σ = (Act.log .error (q.blame i u).line).after ((q.act u k).after σ) := by
  rw [loop, Act.result_bind, Act.after_bind, if_pos h]
  exact ⟨rfl, rfl⟩

/-- A part that passes is followed by those after it. -/
theorem loop_of_pass (h : ((q.act u k).result σ).isError = false) :
    (q.loop i tally k (u :: us)).result σ =
        (q.loop (i + 1) (tally.add ((q.act u k).result σ)) (q.next k ((q.act u k).result σ)) us).result
          ((q.act u k).after σ) ∧
      (q.loop i tally k (u :: us)).after σ =
        (q.loop (i + 1) (tally.add ((q.act u k).result σ)) (q.next k ((q.act u k).result σ)) us).after
          ((q.act u k).after σ) := by
  rw [loop, Act.result_bind, Act.after_bind, if_neg (Bool.eq_false_iff.mp h)]
  exact ⟨rfl, rfl⟩

end Sequence

/-! ### What sequences add -/

namespace Sequence

variable {U : Type} {q : Sequence U}

theorem adds_loop (h : ∀ u k, (q.act u k).Adds) (i : Nat) (tally : Tally) (k : Baton) (us : List U) :
    (q.loop i tally k us).Adds := by
  induction us generalizing i tally k with
  | nil => exact Act.adds_pure _
  | cons u us ih =>
    refine (h u k).bind fun r => ?_
    split
    · exact (Act.adds_log _ _).bind fun _ => Act.adds_pure _
    · exact ih _ _ _

theorem adds_run (h : ∀ u k, (q.act u k).Adds) (k : Baton) (us : List U) : (q.run k us).Adds :=
  (Act.adds_publish _).bind fun _ => (adds_loop h _ _ _ _).bind fun _ => (Act.adds_publish _).bind fun _ =>
    Act.adds_pure _

end Sequence

theorem Task.adds_run (t : Task) (c : Context) (input : Option Payload) : (t.run c input).Adds := by
  rw [run_eq]
  exact Sequence.adds_run (fun s k => s.adds_run _ _) _ _

theorem Job.adds_run (j : Job) (c : Context) (input : Option Payload) : (j.run c input).Adds := by
  rw [run_eq]
  exact Sequence.adds_run (fun t k => t.adds_run _ _) _ _

end FluentShift.Engine
