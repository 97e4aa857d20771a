import FluentShift.Proofs.Engine.Grouping
import FluentShift.Proofs.Engine.Nesting
import Mathlib.Data.List.Chain

/-!
# FluentShift.Proofs.Engine.Contexts - how far a context goes

A task that gives a context gives it to the tasks after it in its job.  The job itself gives data and keeps the context, so
the next job begins with the context that this one began with (`Pipeline.context_reaches_iff`).  The data goes on past a
task that gives a context, from job to job too.

`Sequence.turns` lists the parts that a sequence runs, each with what is handed to it.  What one turn leaves for the next
is said once, for the tasks of a job (`Sequence.isChain_turns`) and for those of a pipeline (`TaskTurn.Next`).
-/

namespace FluentShift.Engine

open FluentShift.Files

/-! ### Turns -/

/-- A part of a sequence when its turn comes: what is handed to it, and the session that it finds. -/
structure Turn (U : Type) where
  part : U
  baton : Baton
  session : Session

namespace Sequence

variable {U : Type} (q : Sequence U) {k : Baton} {us : List U} {σ : Session}

/-- What a part comes to in its turn. -/
def came (t : Turn U) : Result Payload := (q.act t.part t.baton).result t.session

/-- What is handed on after a turn. -/
def handed (t : Turn U) : Baton := q.next t.baton (q.came t)

/-- The turns of parts, up to the first part that fails. -/
def turnsFrom : Baton → List U → Session → List (Turn U)
  | _, [], _ => []
  | k, u :: us, σ =>
    ⟨u, k, σ⟩ :: if ((q.act u k).result σ).isError then [] else
      turnsFrom (q.next k ((q.act u k).result σ)) us ((q.act u k).after σ)

/-- The turns of all parts, once the sequence has said that it starts. -/
def turns (k : Baton) (us : List U) (σ : Session) : List (Turn U) :=
  q.turnsFrom k us ((Act.publish (q.started k.1)).after σ)

/-- What is in hand after turns, given what was before them. -/
def inHand (k : Baton) (ts : List (Turn U)) : Baton := (ts.getLast?.map q.handed).getD k

theorem inHand_cons (t : Turn U) (ts : List (Turn U)) : q.inHand k (t :: ts) = q.inHand (q.handed t) ts := by
  rw [inHand, inHand, List.getLast?_cons]
  cases ts.getLast? <;> rfl

/-- What the parts add to the lifecycle, they add in their turns. -/
theorem traces_eq (k : Baton) (us : List U) (σ : Session) :
    q.traces k us σ = (q.turnsFrom k us σ).map fun t => (q.act t.part t.baton).trace t.session := by
  induction us generalizing k σ with
  | nil => rfl
  | cons u us ih =>
    rw [traces, turnsFrom, List.map_cons]
    split
    · rfl
    · rw [ih]

/-- The first part gets what the sequence was given. -/
theorem baton_of_head : ∀ t ∈ (q.turnsFrom k us σ).head?, t.baton = k := by
  cases us with
  | nil => exact fun _ h => absurd h (Option.not_mem_none _)
  | cons u us =>
    rintro t ⟨⟩
    rfl

/-- Each further part gets what the one before it left. -/
theorem isChain_turns (k : Baton) (us : List U) (σ : Session) :
    (q.turnsFrom k us σ).IsChain fun t t' => t'.baton = q.handed t := by
  induction us generalizing k σ with
  | nil => exact .nil
  | cons u us ih =>
    rw [turnsFrom]
    split
    · exact .singleton _
    · exact List.isChain_cons.mpr ⟨q.baton_of_head, ih _ _⟩

/-- A loop that comes to its end gives the data that is in hand then. -/
theorem loop_data (i : Nat) (tally : Tally) (h : ((q.loop i tally k us).result σ).isError = false) :
    ((q.loop i tally k us).result σ).data = (q.inHand k (q.turnsFrom k us σ)).2 := by
  induction us generalizing i tally k σ with
  | nil => exact Result.finish_data _ _ _
  | cons u us ih =>
    cases hu : ((q.act u k).result σ).isError with
    | true =>
      rw [(loop_of_fail i tally us hu).1] at h
      cases h
    | false =>
      rw [(loop_of_pass i tally us hu).1] at h ⊢
      rw [ih _ _ h, turnsFrom, hu, if_neg Bool.false_ne_true, inHand_cons]
      rfl

/-- A sequence that comes to its end gives the data that is in hand then. -/
theorem run_data (h : ((q.run k us).result σ).isError = false) :
    ((q.run k us).result σ).data = (q.inHand k (q.turns k us σ)).2 := q.loop_data 0 .empty h

end Sequence

/-! ### Steps that started -/

/-- The context, the name and the type of the step whose start an event is. -/
def Event.stepInContext? : Event → Option (Context × String × String)
  | .stepStarted c name type => some (c, name, type)
  | _ => none

/-- The steps whose starts events are, each with the context that it was run in. -/
def stepsInContext (es : List Event) : List (Context × String × String) := es.filterMap Event.stepInContext?

theorem Step.stepsInContext_run (s : Step) (c : Context) (input : Option Payload) (σ : Session) :
    stepsInContext ((s.run c input).trace σ) = [(c, s.name, s.type)] := by
  rw [trace_run]
  rfl

/-- The steps that a sequence starts are those that its parts start in their turns. -/
theorem Sequence.stepsInContext_run {U : Type} {q : Sequence U} {u : UnitName} (hname : q.IsNamed u)
    (hstart : ∀ c, (q.started c).stepInContext? = none) (hend : ∀ c status, (q.completed c status).stepInContext? = none)
    (hadds : ∀ u k, (q.act u k).Adds) (k : Baton) (us : List U) (σ : Session) :
    stepsInContext ((q.run k us).trace σ) =
      (q.turns k us σ).flatMap fun t => stepsInContext ((q.act t.part t.baton).trace t.session) := by
  rw [trace_run hname hadds, traces_eq, ← List.flatMap_def, stepsInContext, List.filterMap_append,
    List.filterMap_cons_none (hstart _), List.filterMap_cons_none (hend _ _), List.filterMap_nil, List.append_nil]
  exact List.filterMap_flatMap

/-! ### The tasks of a pipeline in their turns -/

/-- A task of a pipeline in its turn: the number of its job, the turn of the job, and its own. -/
structure TaskTurn where
  number : Nat
  job : Turn Job
  task : Turn Task

namespace TaskTurn

/-- What the task comes to. -/
def came (t : TaskTurn) : Result Payload := (t.task.part.run t.task.baton.1 t.task.baton.2).result t.task.session

/-- The task gives a context. -/
def Yields (t : TaskTurn) (c : Context) : Prop := t.came.data = some (.context c)

/-- What the task leaves for the next one of its job. -/
def handed (t : TaskTurn) : Baton := handOn t.task.baton.1 t.task.baton.2 t.came

/-- The steps of the task in their turns. -/
def steps (t : TaskTurn) : List (Turn Step) := t.task.part.sequence.turns t.task.baton t.task.part.steps t.task.session

end TaskTurn

/-- The tasks of a job in their turns. -/
def Turn.tasks (t : Turn Job) : List (Turn Task) := t.part.sequence.turns t.baton t.part.tasks t.session

/-- The tasks of jobs in their turns; the jobs have numbers from `i` on. -/
def taskTurnsFrom (i : Nat) (js : List (Turn Job)) : List TaskTurn :=
  (js.zipIdx i).flatMap fun j => j.1.tasks.map (TaskTurn.mk j.2 j.1)

/-- The tasks of a pipeline in their turns. -/
def Pipeline.taskTurns (name : String) (jobs : List Job) (c : Context) (input : Option Payload) (σ : Session) :
    List TaskTurn :=
  taskTurnsFrom 0 ((sequence name).turns (c, input) jobs σ)

theorem taskTurnsFrom_cons (i : Nat) (j : Turn Job) (js : List (Turn Job)) :
    taskTurnsFrom i (j :: js) = j.tasks.map (TaskTurn.mk i j) ++ taskTurnsFrom (i + 1) js := by
  rw [taskTurnsFrom, List.zipIdx_cons, List.flatMap_cons]
  rfl

/-- The number of the job does not matter for what is true of the turns of jobs and tasks. -/
theorem flatMap_taskTurnsFrom {α : Type} (f : Turn Task → List α) (i : Nat) (js : List (Turn Job)) :
    (taskTurnsFrom i js).flatMap (fun t => f t.task) = js.flatMap fun j => j.tasks.flatMap f := by
  induction js generalizing i with
  | nil => rfl
  | cons j js ih =>
    rw [taskTurnsFrom_cons, List.flatMap_append, List.flatMap_cons, ih, List.flatMap_map]

theorem mem_taskTurnsFrom {t : TaskTurn} {i : Nat} {js : List (Turn Job)} (h : t ∈ taskTurnsFrom i js) : t.job ∈ js := by
  obtain ⟨⟨j, n⟩, hj, ht⟩ := List.mem_flatMap.mp h
  obtain ⟨task, -, rfl⟩ := List.mem_map.mp ht
  exact List.fst_mem_of_mem_zipIdx hj

/-- The steps that a task starts are those of its turn, all of them in the context of the task. -/
theorem Task.stepsInContext_run (t : Task) (k : Baton) (σ : Session) :
    stepsInContext ((t.run k.1 k.2).trace σ) =
      (t.sequence.turns k t.steps σ).map fun s => (s.baton.1, s.part.name, s.part.type) := by
  rw [run_eq, Sequence.stepsInContext_run t.isNamed_sequence (fun _ => rfl) (fun _ _ => rfl) (fun s k => s.adds_run _ _)]
  exact (List.flatMap_congr fun s _ => s.part.stepsInContext_run _ _ _).trans List.map_eq_flatMap.symm

theorem Job.stepsInContext_run (j : Turn Job) :
    stepsInContext ((j.part.run j.baton.1 j.baton.2).trace j.session) = j.tasks.flatMap fun t =>
      (t.part.sequence.turns t.baton t.part.steps t.session).map fun s => (s.baton.1, s.part.name, s.part.type) := by
  rw [run_eq, Sequence.stepsInContext_run j.part.isNamed_sequence (fun _ => rfl) (fun _ _ => rfl)
    (fun t k => t.adds_run _ _)]
  exact List.flatMap_congr fun t _ => t.part.stepsInContext_run t.baton t.session

/-- The steps that a pipeline starts are those of its tasks in their turns, each in the context that it is handed. -/
theorem Pipeline.stepsInContext_run (name : String) (jobs : List Job) (c : Context) (input : Option Payload)
    (σ : Session) :
    stepsInContext (((ofJobs name jobs).run c input).trace σ) =
      (taskTurns name jobs c input σ).flatMap fun t => t.steps.map fun s => (s.baton.1, s.part.name, s.part.type) := by
  rw [run_eq, Sequence.stepsInContext_run (isNamed_sequence name) (fun _ => rfl) (fun _ _ => rfl)
    (fun j k => j.adds_run _ _)]
  exact (List.flatMap_congr fun j _ => Job.stepsInContext_run j).trans (flatMap_taskTurnsFrom _ 0 _).symm

/-! ### What a task and a job hand on -/

/-- Data that may come after other data: the same, or some that does not take the place of the context. -/
def Follows (input input' : Option Payload) : Prop := input' = input ∨ ∃ p, Clear p ∧ input' = some p

section Follows

variable {c c' : Context} {input input' input'' : Option Payload} {r : Result Payload} {p : Payload}

theorem Follows.trans (h : Follows input input') (h' : Follows input' input'') : Follows input input'' := by
  cases h' with
  | inl h' => exact h' ▸ h
  | inr h' => exact .inr h'

theorem Follows.of_context (h : Follows input (some (.context c))) : input = some (.context c) := by
  obtain h | ⟨p, hp, h⟩ := h
  · exact h.symm
  · exact absurd (Option.some.inj h).symm (hp c)

/-- A context takes the place of the context. -/
theorem handOn_of_context (h : r.data = some (.context c')) : handOn c input r = (c', input) := by rw [handOn, h]

/-- Without a context in its data a unit leaves the context as it is. -/
theorem handOn_context (h : ∀ c', r.data ≠ some (.context c')) : (handOn c input r).1 = c := by
  rw [handOn_of_clear fun p hp c' hc => h c' (hc ▸ hp)]

theorem follows_handOn (c : Context) (input : Option Payload) (r : Result Payload) :
    Follows input (handOn c input r).2 := by
  unfold handOn
  split
  · exact .inl rfl
  · rename_i p hcontext hdata
    exact .inr ⟨p, hcontext, rfl⟩
  · exact .inl rfl

/-- Data that may come after the data that there was is the data after a unit that gives it. -/
theorem handOn_of_follows (h : Follows input r.data) : (handOn c input r).2 = r.data := by
  cases hdata : r.data with
  | none =>
    rw [hdata] at h
    obtain h | ⟨p, -, h⟩ := h
    · rw [handOn, hdata]
      exact h.symm
    · cases h
  | some p =>
    cases p with
    | context c' =>
      rw [handOn_of_context hdata]
      exact (hdata ▸ h).of_context
    | _ => rw [handOn, hdata]

end Follows

section Jobs

variable {j : Turn Job}

theorem follows_inHand (q : Sequence Task) (hnext : ∀ k r, q.next k r = handOn k.1 k.2 r) (k : Baton) (us : List Task)
    (σ : Session) : Follows k.2 (q.inHand k (q.turnsFrom k us σ)).2 := by
  induction us generalizing k σ with
  | nil => exact .inl rfl
  | cons u us ih =>
    have hfirst : Follows k.2 (q.next k ((q.act u k).result σ)).2 := hnext k _ ▸ follows_handOn _ _ _
    rw [Sequence.turnsFrom, Sequence.inHand_cons]
    split
    · exact hfirst
    · exact hfirst.trans (ih _ _)

/-- What a job comes to in its turn. -/
def Turn.came (j : Turn Job) : Result Payload := (j.part.run j.baton.1 j.baton.2).result j.session

/-- A job gives the data that is in hand after its tasks. -/
theorem Turn.came_data (h : j.came.isError = false) : j.came.data = (j.part.sequence.inHand j.baton j.tasks).2 := by
  rw [came, Job.run_eq] at h ⊢
  exact j.part.sequence.run_data h

theorem Turn.follows_came (h : j.came.isError = false) : Follows j.baton.2 j.came.data := by
  rw [came_data h]
  exact follows_inHand _ (fun _ _ => rfl) _ _ _

/-- The data after a job is that after its tasks, whether or not they gave a context. -/
theorem Turn.data_after (h : j.came.isError = false) :
    (handOn j.baton.1 j.baton.2 j.came).2 = (j.part.sequence.inHand j.baton j.tasks).2 := by
  rw [handOn_of_follows (follows_came h), came_data h]

/-- The context after a job is the one that it began with, or it was handed to the job as data. -/
theorem Turn.context_after (h : j.came.isError = false) :
    (handOn j.baton.1 j.baton.2 j.came).1 = j.baton.1 ∨
      j.baton.2 = some (.context (handOn j.baton.1 j.baton.2 j.came).1) := by
  by_cases hdata : ∃ c, j.came.data = some (.context c)
  · obtain ⟨c, hc⟩ := hdata
    rw [handOn_of_context hc]
    exact .inr (hc ▸ follows_came h).of_context
  · exact .inl (handOn_context fun c hc => hdata ⟨c, hc⟩)

end Jobs

/-- A task runs its steps in the context that it is handed. -/
theorem Task.context_of_turn (t : Task) (k : Baton) (ss : List Step) (σ : Session) :
    ∀ s ∈ t.sequence.turnsFrom k ss σ, s.baton.1 = k.1 := by
  induction ss generalizing k σ with
  | nil => exact fun _ h => absurd h List.not_mem_nil
  | cons step ss ih =>
    intro s hs
    obtain rfl | hs := List.mem_cons.mp hs
    · rfl
    · split at hs
      · exact absurd hs List.not_mem_nil
      · exact ih (t.sequence.next k _) _ s hs

/-- Every job begins with the context of the pipeline, or with one that the pipeline was given as data. -/
theorem Pipeline.context_of_turn (name : String) (k : Baton) (jobs : List Job) (σ : Session) :
    ∀ j ∈ (sequence name).turnsFrom k jobs σ, j.baton.1 = k.1 ∨ k.2 = some (.context j.baton.1) := by
  induction jobs generalizing k σ with
  | nil => exact fun _ h => absurd h List.not_mem_nil
  | cons job jobs ih =>
    intro j hj
    obtain rfl | hj := List.mem_cons.mp hj
    · exact .inl rfl
    · split at hj
      · exact absurd hj List.not_mem_nil
      · rename_i hpass
        have hfirst := Turn.context_after (j := ⟨job, k, σ⟩) (Bool.eq_false_iff.mpr hpass)
        have hdata : Follows k.2 (handOn k.1 k.2 (Turn.came ⟨job, k, σ⟩)).2 := follows_handOn _ _ _
        obtain h | h := ih _ _ j hj
        · exact hfirst.imp (fun h' => h.trans h') fun h' => h.symm ▸ h'
        · exact .inr (h ▸ hdata : Follows k.2 (some (.context j.baton.1))).of_context

/-! ### From task to task -/

namespace TaskTurn

variable {t t' v w : TaskTurn} {c : Context}

/-- How the turn of a task goes with the one before it.  In the same job it gets what that one left; the first task of a
later job gets the data that was left, and the context that its job begins with. -/
inductive Next (t t' : TaskTurn) : Prop
  | sameJob (number : t'.number = t.number) (job : t'.job = t.job) (baton : t'.task.baton = t.handed)
  | laterJob (number : t.number < t'.number) (context : t'.task.baton.1 = t'.job.baton.1)
      (data : t'.task.baton.2 = t.handed.2)

/-- How the first task of some jobs begins, when the jobs have numbers from `i` on and there was some data before them. -/
structure Begins (i : Nat) (input : Option Payload) (t : TaskTurn) : Prop where
  number : i ≤ t.number
  context : t.task.baton.1 = t.job.baton.1
  data : t.task.baton.2 = input

/-- A turn goes on from that of the task with a context: in the same job with this context, and in any other with the one
that the job begins with. -/
structure GoesOn (v : TaskTurn) (c : Context) (t : TaskTurn) : Prop where
  number : v.number ≤ t.number
  same : t.number = v.number → t.task.baton.1 = c
  later : t.number ≠ v.number → t.task.baton.1 = t.job.baton.1

theorem Next.data (h : t.Next t') : t'.task.baton.2 = t.handed.2 := by
  cases h with
  | sameJob _ _ baton => rw [baton]
  | laterJob _ _ data => exact data

theorem Next.goesOn_of_yields (h : v.Next t) (hyield : v.Yields c) : GoesOn v c t := by
  cases h with
  | sameJob number _ baton =>
    refine ⟨number.ge, fun _ => ?_, fun hne => absurd number hne⟩
    rw [baton, handed, handOn_of_context hyield]
  | laterJob number context _ => exact ⟨number.le, fun heq => absurd heq number.ne', fun _ => context⟩

theorem GoesOn.next (h : GoesOn v c t) (hsilent : ∀ c', ¬t.Yields c') (hnext : t.Next t') : GoesOn v c t' := by
  cases hnext with
  | sameJob number job baton =>
    have hcontext : t'.task.baton.1 = t.task.baton.1 := by rw [baton, handed, handOn_context hsilent]
    refine ⟨number ▸ h.number, fun heq => hcontext.trans (h.same (number ▸ heq)), fun hne => ?_⟩
    rw [hcontext, job, h.later (number ▸ hne)]
  | laterJob number context _ =>
    have hlater := h.number.trans_lt number
    exact ⟨hlater.le, fun heq => absurd heq hlater.ne', fun _ => context⟩

/-- Between tasks that give no context the turns go on. -/
theorem GoesOn.of_isChain {middle : List TaskTurn} (h : GoesOn v c t) (hsilent : ∀ u ∈ t :: middle, ∀ c', ¬u.Yields c')
    (hchain : (t :: (middle ++ [w])).IsChain Next) : GoesOn v c w := by
  induction middle generalizing t with
  | nil => exact h.next (hsilent t List.mem_cons_self) (List.isChain_pair.mp hchain)
  | cons u middle ih =>
    obtain ⟨hfirst, hrest⟩ := List.isChain_cons_cons.mp hchain
    exact ih (h.next (hsilent t List.mem_cons_self) hfirst) (fun u hu => hsilent u (List.mem_cons_of_mem _ hu)) hrest

/-- After a task that gives a context the turns go on, as long as no other task gives one. -/
theorem goesOn_of_yields {middle : List TaskTurn} (hyield : v.Yields c) (hsilent : ∀ u ∈ middle, ∀ c', ¬u.Yields c')
    (hchain : (v :: (middle ++ [w])).IsChain Next) : GoesOn v c w := by
  cases middle with
  | nil => exact (List.isChain_pair.mp hchain).goesOn_of_yields hyield
  | cons u middle =>
    obtain ⟨hfirst, hrest⟩ := List.isChain_cons_cons.mp hchain
    exact (hfirst.goesOn_of_yields hyield).of_isChain hsilent hrest

/-- The tasks of a job follow each other in it. -/
theorem isChain_job (i : Nat) (j : Turn Job) : (j.tasks.map (TaskTurn.mk i j)).IsChain Next :=
  (List.isChain_map _).mpr ((j.part.sequence.isChain_turns _ _ _).imp fun _ _ h => .sameJob rfl rfl h)

/-- After the last task of a job comes the first of a later one. -/
theorem next_of_last {j : Turn Job} {i : Nat} (hpass : j.came.isError = false)
    (ht : t ∈ (j.tasks.map (TaskTurn.mk i j)).getLast?)
    (ht' : Begins (i + 1) (handOn j.baton.1 j.baton.2 j.came).2 t') : t.Next t' := by
  rw [List.getLast?_map] at ht
  obtain ⟨task, hlast, rfl⟩ := Option.map_eq_some_iff.mp ht
  refine .laterJob ht'.number ht'.context ?_
  rw [ht'.data, Turn.data_after hpass, Sequence.inHand, hlast]
  rfl

/-- The first task of some jobs is the first of the first job that has one; before it no data is lost. -/
theorem begins_append {j : Turn Job} {i : Nat} {rest : List TaskTurn}
    (hrest : ∀ t ∈ rest.head?, j.came.isError = false ∧ Begins (i + 1) (handOn j.baton.1 j.baton.2 j.came).2 t) :
    ∀ t ∈ (j.tasks.map (TaskTurn.mk i j) ++ rest).head?, Begins i j.baton.2 t := by
  intro t ht
  cases htasks : j.tasks with
  | nil =>
    rw [htasks] at ht
    obtain ⟨hpass, hbegins⟩ := hrest t ht
    refine ⟨(Nat.le_succ i).trans hbegins.number, hbegins.context, ?_⟩
    rw [hbegins.data, Turn.data_after hpass, htasks]
    rfl
  | cons task tasks =>
    have hhead : task.baton = j.baton := j.part.sequence.baton_of_head task (by
      show task ∈ j.tasks.head?
      rw [htasks]
      rfl)
    rw [htasks] at ht
    obtain rfl := Option.some.inj ht
    exact ⟨le_rfl, congrArg Prod.fst hhead, congrArg Prod.snd hhead⟩

/-- The tasks of a pipeline go with each other. -/
theorem isChain_taskTurnsFrom (name : String) (i : Nat) (k : Baton) (jobs : List Job) (σ : Session) :
    (taskTurnsFrom i ((Pipeline.sequence name).turnsFrom k jobs σ)).IsChain Next ∧
      ∀ t ∈ (taskTurnsFrom i ((Pipeline.sequence name).turnsFrom k jobs σ)).head?, Begins i k.2 t := by
  induction jobs generalizing i k σ with
  | nil => exact ⟨.nil, fun _ h => absurd h (Option.not_mem_none _)⟩
  | cons job jobs ih =>
    let j : Turn Job := ⟨job, k, σ⟩
    cases hpass : j.came.isError with
    | true =>
      have hturns : (Pipeline.sequence name).turnsFrom k (job :: jobs) σ = [j] := by
        rw [Sequence.turnsFrom]
        exact congrArg (List.cons j) (if_pos hpass)
      rw [hturns, taskTurnsFrom_cons]
      refine ⟨?_, begins_append fun _ h => absurd h (Option.not_mem_none _)⟩
      rw [show taskTurnsFrom (i + 1) [] = [] from rfl, List.append_nil]
      exact isChain_job i j
    | false =>
      obtain ⟨hchain, hbegins⟩ := ih (i + 1) (handOn k.1 k.2 j.came) ((job.run k.1 k.2).after σ)
      have hturns : (Pipeline.sequence name).turnsFrom k (job :: jobs) σ =
          j :: (Pipeline.sequence name).turnsFrom (handOn k.1 k.2 j.came) jobs ((job.run k.1 k.2).after σ) := by
        rw [Sequence.turnsFrom]
        exact congrArg (List.cons j) (if_neg (Bool.eq_false_iff.mp hpass))
      rw [hturns, taskTurnsFrom_cons]
      exact ⟨List.isChain_append.mpr ⟨isChain_job i j, hchain, fun _ ht _ ht' => next_of_last hpass ht (hbegins _ ht')⟩,
        begins_append fun t ht => ⟨hpass, hbegins t ht⟩⟩

end TaskTurn

/-! ### How far a context goes -/

/-- A task that gives a context gives it to the tasks after it, up to the next one that gives a context, exactly in its own
job, and in a later job when that job begins with this very context; every job begins with the context of the pipeline,
unless the pipeline was given a context as data.  A task runs all its steps in the context that it is handed, these are the
steps that the run starts, and the first of them gets the data.  The task after one that gave a context gets the data
that this one got, in the same job or a later one. -/
theorem Pipeline.context_reaches_iff (name : String) (jobs : List Job) (c : Context) (input : Option Payload)
    (σ : Session) {before middle after : List TaskTurn} {v w : TaskTurn} {c' : Context}
    (hturns : taskTurns name jobs c input σ = before ++ v :: (middle ++ w :: after)) (hyield : v.Yields c')
    (hsilent : ∀ u ∈ middle, ∀ c'', ¬u.Yields c'') :
    (w.task.baton.1 = c' ↔ w.number = v.number ∨ w.job.baton.1 = c') ∧
    (w.job.baton.1 = c ∨ input = some (.context w.job.baton.1)) ∧
    (middle = [] → w.task.baton.2 = v.task.baton.2) ∧
    (∀ s ∈ w.steps, s.baton.1 = w.task.baton.1) ∧ (∀ s ∈ w.steps.head?, s.baton.2 = w.task.baton.2) ∧
    stepsInContext (((ofJobs name jobs).run c input).trace σ) =
      (taskTurns name jobs c input σ).flatMap fun t => t.steps.map fun s => (s.baton.1, s.part.name, s.part.type) := by
  have hall := (TaskTurn.isChain_taskTurnsFrom name 0 (c, input) jobs ((Act.publish (.pipelineStarted c)).after σ)).1
  have hfrom : (before ++ v :: (middle ++ w :: after)).IsChain TaskTurn.Next := hturns ▸ hall
  -- the turns from the one with the context up to the one in question
  have hchain : (v :: (middle ++ [w])).IsChain TaskTurn.Next := by
    have hbehind : ((v :: middle) ++ w :: after).IsChain TaskTurn.Next := (List.isChain_split.mp hfrom).2
    exact (List.isChain_split.mp hbehind).1
  have hgoes := TaskTurn.goesOn_of_yields hyield hsilent hchain
  have hw : w ∈ taskTurns name jobs c input σ := by
    rw [hturns]
    exact List.mem_append_right _ (List.mem_cons_of_mem _ (List.mem_append_right _ List.mem_cons_self))
  refine ⟨⟨fun h => ?_, ?_⟩, context_of_turn name _ _ _ _ (mem_taskTurnsFrom hw), ?_, fun s hs => ?_, fun s hs => ?_,
    stepsInContext_run name jobs c input σ⟩
  · by_cases hnumber : w.number = v.number
    · exact .inl hnumber
    · exact .inr ((hgoes.later hnumber).symm.trans h)
  · rintro (hnumber | hcontext)
    · exact hgoes.same hnumber
    · by_cases hnumber : w.number = v.number
      · exact hgoes.same hnumber
      · exact (hgoes.later hnumber).trans hcontext
  · rintro rfl
    rw [(List.isChain_pair.mp hchain).data, TaskTurn.handed, handOn_of_context hyield]
  · exact Task.context_of_turn _ _ _ _ s hs
  · exact congrArg Prod.snd (Sequence.baton_of_head _ s hs)

/-- A task that makes a note, and one that looks at what it gets. -/
def noteAndLook : List Task :=
  [⟨"note", [(Script.renew "key" (.int 1)).step "note" "ScriptStep" []]⟩,
    ⟨"look", [Script.look.step "look" "ScriptStep" []]⟩]

/-- The two tasks in one job. -/
def noteAndLookTogether : List Job := [⟨"notes", "Job", noteAndLook⟩]

/-- Each of the two tasks in a job of its own. -/
def noteAndLookApart : List Job := noteAndLook.map fun t => ⟨t.name, "Job", [t]⟩

/-- The context with the note. -/
def noted : Context := emptyRun.1.note "key" (.int 1)

theorem Pipeline.context_reaches_noteAndLook :
    ∃ v w : TaskTurn, taskTurns "notes" noteAndLookTogether emptyRun.1 (some (.plain (.int 0))) emptyRun.2 = [v, w] ∧
      v.Yields noted ∧ w.number = v.number ∧ w.task.baton.1 = noted ∧ w.task.baton.2 = some (.plain (.int 0)) := by
  obtain ⟨v, w, hturns, hyield, hnumber, hinput⟩ : ∃ v w : TaskTurn,
      taskTurns "notes" noteAndLookTogether emptyRun.1 (some (.plain (.int 0))) emptyRun.2 = [v, w] ∧
        v.Yields noted ∧ w.number = v.number ∧ v.task.baton.2 = some (.plain (.int 0)) := ⟨_, _, rfl, rfl, rfl, rfl⟩
  have hsplit : [v, w] = [] ++ v :: ([] ++ w :: []) := rfl
  obtain ⟨hcontext, -, hdata, -⟩ := context_reaches_iff "notes" noteAndLookTogether _ _ emptyRun.2 (hturns.trans hsplit)
    hyield fun _ h => absurd h List.not_mem_nil
  exact ⟨v, w, hturns, hyield, hnumber, hcontext.mpr (.inl hnumber), (hdata rfl).trans hinput⟩

/-- The task that looks in a job after that of the note does not see it. -/
theorem Pipeline.contextLost_noteAndLook :
    ∃ v w : TaskTurn, taskTurns "notes" noteAndLookApart emptyRun.1 (some (.plain (.int 0))) emptyRun.2 = [v, w] ∧
      v.Yields noted ∧ (∃ s ∈ w.steps, s.baton.1 ≠ noted) ∧
      (((ofJobs "notes" noteAndLookApart).run emptyRun.1 (some (.plain (.int 0)))).result emptyRun.2).data =
        some (.observed (some (.plain (.int 0))) []) := by
  refine ⟨_, _, rfl, rfl, ⟨_, List.mem_cons_self, fun h => ?_⟩, rfl⟩
  have hnotes : ([] : Metadata) = [("key", .int 1)] := congrArg Context.metadata h
  cases hnotes

end FluentShift.Engine
