import FluentShift.Proofs.Engine.Sequence

/-!
# FluentShift.Proofs.Engine.Nesting - starts and completions

The events of a unit are its start, those of its parts up to the first that fails, and its completion, with the status of
what the unit gives (`Sequence.trace_run`).  So starts and completions are nested like brackets, and after the first step
that fails only the units around it are completed (`Told`).
-/

namespace FluentShift.Engine

/-! ### Starts and completions -/

/-- How a unit is called in the events about it. -/
inductive UnitName where
  | pipeline
  | job (name type : String)
  | task (name type : String)
  | step (name type : String)
  deriving DecidableEq

namespace Event

/-- The unit whose start an event is. -/
def started? : Event → Option UnitName
  | .pipelineStarted _ => some .pipeline
  | .jobStarted _ name type _ => some (.job name type)
  | .taskStarted _ name type _ => some (.task name type)
  | .stepStarted _ name type => some (.step name type)
  | _ => none

/-- The unit whose completion an event is, and with which status. -/
def completed? : Event → Option (UnitName × Status)
  | .pipelineCompleted _ status => some (.pipeline, status)
  | .jobCompleted _ name type status => some (.job name type, status)
  | .taskCompleted _ name type status => some (.task name type, status)
  | .stepCompleted _ name type status => some (.step name type, status)
  | _ => none

/-- Whether an event is the start or the completion of a unit. -/
def isLifecycle (e : Event) : Bool := e.started?.isSome || e.completed?.isSome

/-- Whether an event is the completion of a step that failed. -/
def failsStep (e : Event) : Bool :=
  match e.completed? with
  | some (.step _ _, .error) => true
  | _ => false

section

variable {e : Event} {u : UnitName} {status : Status}

theorem isLifecycle_of_started (h : e.started? = some u) : e.isLifecycle = true := by
  rw [isLifecycle, h]
  rfl

theorem isLifecycle_of_completed (h : e.completed? = some (u, status)) : e.isLifecycle = true := by
  rw [isLifecycle, h]
  exact Bool.or_true _

theorem completed_of_started (h : e.started? = some u) : e.completed? = none := by
  cases e <;> first | rfl | cases h

theorem started_of_completed (h : e.completed? = some (u, status)) : e.started? = none := by
  cases e <;> first | rfl | cases h

theorem failsStep_of_started (h : e.started? = some u) : e.failsStep = false := by
  rw [failsStep, completed_of_started h]

end

end Event

/-! ### What an act adds to the lifecycle -/

namespace Act

variable {α β : Type} {σ : Session}

/-- The starts and completions that an act adds to the events of a session. -/
def trace (a : Act α) (σ : Session) : List Event :=
  ((a.after σ).events.drop σ.events.length).filter Event.isLifecycle

theorem trace_of_events {a : Act α} {new : List Event} (h : (a.after σ).events = σ.events ++ new) :
    a.trace σ = new.filter Event.isLifecycle := by
  rw [trace, h, List.drop_left]

@[simp] theorem trace_pure (x : α) : trace (pure x) σ = [] :=
  trace_of_events (show _ = σ.events ++ [] from (List.append_nil _).symm)

@[simp] theorem trace_log (level : Level) (text : String) : trace (log level text) σ = [] :=
  trace_of_events (show _ = σ.events ++ [] from (List.append_nil _).symm)

theorem trace_publish {e : Event} (h : e.isLifecycle = true) : trace (publish e) σ = [e] := by
  rw [trace_of_events (show _ = σ.events ++ [e] from rfl), List.filter_cons_of_pos h]
  rfl

/-- An act after another adds behind what that one added. -/
theorem Adds.trace_bind {a : Act α} {f : α → Act β} (ha : a.Adds) (hf : ∀ x, (f x).Adds) :
    (a >>= f).trace σ = a.trace σ ++ (f (a.result σ)).trace (a.after σ) := by
  obtain ⟨new, hnew⟩ := ha.events σ
  obtain ⟨new', hnew'⟩ := (hf (a.result σ)).events (a.after σ)
  rw [trace_of_events hnew, trace_of_events hnew', ← List.filter_append]
  refine trace_of_events ?_
  rw [after_bind, hnew', hnew, List.append_assoc]

end Act

/-- A step adds its start and its completion. -/
theorem Step.trace_run (s : Step) (c : Context) (input : Option Payload) (σ : Session) :
    (s.run c input).trace σ =
      [.stepStarted c s.name s.type, .stepCompleted c s.name s.type ((s.run c input).result σ).status] := by
  obtain ⟨ns, hevents⟩ := s.after_run_events c input σ
  have hsilent : (ns.map (Event.notice c)).filter Event.isLifecycle = [] := by
    rw [List.filter_map]
    exact List.map_eq_nil_iff.mpr (List.filter_eq_nil_iff.mpr fun _ _ => Bool.false_ne_true)
  rw [List.append_assoc] at hevents
  rw [Act.trace_of_events hevents, List.filter_append, List.filter_cons_of_pos rfl, hsilent]
  rfl

namespace Sequence

variable {U : Type} {q : Sequence U}

/-- The events of the sequence are about a unit with a name, which is no step. -/
structure IsNamed (q : Sequence U) (u : UnitName) : Prop where
  started : ∀ c, (q.started c).started? = some u
  completed : ∀ c status, (q.completed c status).completed? = some (u, status)
  composed : ∀ c status, (q.completed c status).failsStep = false

/-- What the parts add one after the other, up to the first that fails. -/
def traces (q : Sequence U) : Baton → List U → Session → List (List Event)
  | _, [], _ => []
  | k, u :: us, σ =>
    let a := q.act u k
    a.trace σ :: if (a.result σ).isError then [] else traces q (q.next k (a.result σ)) us (a.after σ)

theorem trace_loop (h : ∀ u k, (q.act u k).Adds) (i : Nat) (tally : Tally) (k : Baton) (us : List U) (σ : Session) :
    (q.loop i tally k us).trace σ = (q.traces k us σ).flatten := by
  induction us generalizing i tally k σ with
  | nil => exact Act.trace_pure _
  | cons u us ih =>
    have hfailed : ∀ r : Result Payload, Act.trace (do
        Act.log .error (q.blame i u).line
        return tally.failure r (q.blame i u).words (q.blame i u).place) ((q.act u k).after σ) = [] := by
      intro r
      rw [(Act.adds_log _ _).trace_bind fun _ => Act.adds_pure _, Act.trace_log, Act.trace_pure]
      rfl
    rw [loop, (h u k).trace_bind, traces, List.flatten_cons]
    · split
      · rw [hfailed]
        rfl
      · rw [ih]
    · intro r
      split
      · exact (Act.adds_log _ _).bind fun _ => Act.adds_pure _
      · exact adds_loop h _ _ _ _

/-- A sequence adds its start, what its parts add up to the first that fails, and its completion with the status of what
it gives. -/
theorem trace_run {u : UnitName} (hname : q.IsNamed u) (h : ∀ u k, (q.act u k).Adds) (k : Baton) (us : List U)
    (σ : Session) :
    (q.run k us).trace σ =
      q.started k.1 :: (q.traces k us ((Act.publish (q.started k.1)).after σ)).flatten ++
        [q.completed k.1 ((q.run k us).result σ).status] := by
  have hend : ∀ r : Result Payload, Act.Adds (do Act.publish (q.completed k.1 r.status); return r) :=
    fun r => (Act.adds_publish _).bind fun _ => Act.adds_pure _
  rw [run, (Act.adds_publish _).trace_bind fun _ => (adds_loop h _ _ _ _).bind hend,
    (adds_loop h _ _ _ _).trace_bind hend, (Act.adds_publish _).trace_bind fun _ => Act.adds_pure _,
    Act.trace_publish (Event.isLifecycle_of_started (hname.started _)),
    Act.trace_publish (Event.isLifecycle_of_completed (hname.completed _ _)), Act.trace_pure, trace_loop h,
    List.append_nil]
  rfl

end Sequence

/-! ### Brackets -/

/-- The units that are open after events, the innermost first, given those before.  There is no answer when an event
completes another unit than the innermost one. -/
def openUnits : List UnitName → List Event → Option (List UnitName)
  | us, [] => some us
  | us, e :: es =>
    match e.started?, e.completed? with
    | some u, _ => openUnits (u :: us) es
    | none, some (u, _) => if us.head? = some u then openUnits us.tail es else none
    | none, none => openUnits us es

section Brackets

variable {us : List UnitName} {u : UnitName} {e : Event} {es es' : List Event}

theorem openUnits_append : openUnits us (es ++ es') = (openUnits us es).bind (openUnits · es') := by
  induction es generalizing us with
  | nil => rfl
  | cons e es ih =>
    rw [List.cons_append, openUnits, openUnits]
    split
    · exact ih
    · split
      · exact ih
      · rfl
    · exact ih

theorem openUnits_started (h : e.started? = some u) : openUnits us (e :: es) = openUnits (u :: us) es := by
  rw [openUnits, h]

theorem openUnits_completed {status : Status} (h : e.completed? = some (u, status)) :
    openUnits (u :: us) (e :: es) = openUnits us es := by
  rw [openUnits, Event.started_of_completed h, h]
  exact if_pos rfl

/-- Completions of open units from the innermost one outwards close them. -/
theorem openUnits_closing {opened : List UnitName} {status : Status}
    (h : es.map Event.completed? = opened.map fun u => some (u, status)) : openUnits (opened ++ us) es = some us := by
  induction opened generalizing es with
  | nil =>
    rw [List.map_eq_nil_iff.mp h]
    rfl
  | cons u opened ih =>
    obtain ⟨e, es, rfl, he, hes⟩ := List.map_eq_cons_iff.mp h
    rw [List.cons_append, openUnits_completed he]
    exact ih hes

end Brackets

/-! ### After the first failure -/

/-- Every unit that starts is completed, and no step fails. -/
structure Whole (es : List Event) : Prop where
  closes : ∀ us, openUnits us es = some us
  passes : ∀ e ∈ es, e.failsStep = false

/-- A step fails, and after it the units that are open then are completed as failed, from the innermost one outwards;
nothing else happens any more. -/
def BreaksOff (es : List Event) : Prop :=
  ∃ before e after opened, es = before ++ e :: after ∧ (∀ e ∈ before, e.failsStep = false) ∧ e.failsStep = true ∧
    (∀ us, openUnits us (before ++ [e]) = some (opened ++ us)) ∧
    after.map Event.completed? = opened.map fun u => some (u, .error)

/-- The events of a unit go with what it gives. -/
inductive Told (r : Result Payload) (es : List Event) : Prop
  | whole (pass : r.isError = false) (whole : Whole es)
  | broken (fail : r.isError = true) (breaks : BreaksOff es)

section Nesting

variable {u : UnitName} {e e' : Event} {es es' : List Event}

theorem BreaksOff.closes (h : BreaksOff es) (us : List UnitName) : openUnits us es = some us := by
  obtain ⟨before, e, after, opened, rfl, -, -, hopen, hafter⟩ := h
  rw [← List.singleton_append, ← List.append_assoc, openUnits_append, hopen]
  exact openUnits_closing hafter

theorem Told.closes {r : Result Payload} (h : Told r es) (us : List UnitName) : openUnits us es = some us := by
  cases h with
  | whole _ h => exact h.closes us
  | broken _ h => exact h.closes us

theorem Whole.nil : Whole [] := ⟨fun _ => rfl, fun _ h => absurd h List.not_mem_nil⟩

theorem Whole.append (h : Whole es) (h' : Whole es') : Whole (es ++ es') :=
  ⟨fun us => by rw [openUnits_append, h.closes]; exact h'.closes us, List.forall_mem_append.mpr ⟨h.passes, h'.passes⟩⟩

theorem Whole.append_breaksOff (h : Whole es) (h' : BreaksOff es') : BreaksOff (es ++ es') := by
  obtain ⟨before, e, after, opened, rfl, hbefore, he, hopen, hafter⟩ := h'
  refine ⟨es ++ before, e, after, opened, (List.append_assoc _ _ _).symm, List.forall_mem_append.mpr ⟨h.passes, hbefore⟩,
    he, fun us => ?_, hafter⟩
  rw [List.append_assoc, openUnits_append, h.closes]
  exact hopen us

theorem Whole.wrap {status : Status} (h : Whole es) (hstart : e.started? = some u)
    (hend : e'.completed? = some (u, status)) (hpass : e'.failsStep = false) : Whole (e :: es ++ [e']) := by
  refine ⟨fun us => ?_, ?_⟩
  · rw [List.cons_append, openUnits_started hstart, openUnits_append, h.closes]
    exact openUnits_completed hend
  · exact List.forall_mem_append.mpr ⟨List.forall_mem_cons.mpr ⟨Event.failsStep_of_started hstart, h.passes⟩,
      List.forall_mem_singleton.mpr hpass⟩

theorem BreaksOff.wrap (h : BreaksOff es) (hstart : e.started? = some u) (hend : e'.completed? = some (u, .error)) :
    BreaksOff (e :: es ++ [e']) := by
  obtain ⟨before, f, after, opened, rfl, hbefore, hf, hopen, hafter⟩ := h
  refine ⟨e :: before, f, after ++ [e'], opened ++ [u], ?_, ?_, hf, fun us => ?_, ?_⟩
  · rw [List.cons_append, List.cons_append, List.append_assoc]
    rfl
  · exact List.forall_mem_cons.mpr ⟨Event.failsStep_of_started hstart, hbefore⟩
  · rw [List.cons_append, openUnits_started hstart, hopen, List.append_assoc]
    rfl
  · rw [List.map_append, List.map_append, hafter]
    exact congrArg (_ ++ [·]) hend

end Nesting

/-! ### Units tell what they give -/

theorem Step.told_run (s : Step) (c : Context) (input : Option Payload) (σ : Session) :
    Told ((s.run c input).result σ) ((s.run c input).trace σ) := by
  rw [trace_run]
  cases hr : ((s.run c input).result σ).isError with
  | true =>
    refine .broken hr ⟨[.stepStarted c s.name s.type], _, [], [], rfl, List.forall_mem_singleton.mpr rfl, ?_, fun us => ?_,
      rfl⟩
    · rw [status_of_isError hr]
      rfl
    · exact (openUnits_started rfl).trans (openUnits_completed rfl)
  | false =>
    refine .whole hr (Whole.nil.wrap rfl rfl ?_)
    cases hstatus : ((s.run c input).result σ).status with
    | error =>
      rw [Result.isError, hstatus] at hr
      cases hr
    | _ => rfl

namespace Sequence

variable {U : Type} {q : Sequence U}

/-- Parts that tell what they give. -/
theorem told_traces (h : ∀ u k σ, Told ((q.act u k).result σ) ((q.act u k).trace σ)) (i : Nat) (tally : Tally) (k : Baton)
    (us : List U) (σ : Session) : Told ((q.loop i tally k us).result σ) (q.traces k us σ).flatten := by
  induction us generalizing i tally k σ with
  | nil =>
    refine .whole ?_ .nil
    show (Result.finish _ _ _ : Result Payload).isError = false
    unfold Result.finish
    split <;> rfl
  | cons u us ih =>
    rw [traces, List.flatten_cons]
    -- a whole part may come before anything; after one that breaks off nothing comes any more
    cases h u k σ with
    | whole hpass hwhole =>
      rw [(loop_of_pass i tally us hpass).1, if_neg (Bool.eq_false_iff.mp hpass)]
      cases ih (i + 1) (tally.add ((q.act u k).result σ)) (q.next k ((q.act u k).result σ)) ((q.act u k).after σ) with
      | whole hpass' hwhole' => exact .whole hpass' (hwhole.append hwhole')
      | broken hfail hbreaks => exact .broken hfail (hwhole.append_breaksOff hbreaks)
    | broken hfail hbreaks =>
      rw [(loop_of_fail i tally us hfail).1, if_pos hfail, List.flatten_nil, List.append_nil]
      exact .broken rfl hbreaks

/-- A sequence tells what it gives when its parts do. -/
theorem told_run {u : UnitName} (hname : q.IsNamed u) (hadds : ∀ u k, (q.act u k).Adds)
    (h : ∀ u k σ, Told ((q.act u k).result σ) ((q.act u k).trace σ)) (k : Baton) (us : List U) (σ : Session) :
    Told ((q.run k us).result σ) ((q.run k us).trace σ) := by
  rw [trace_run hname hadds]
  have hresult : (q.run k us).result σ = (q.loop 0 .empty k us).result ((Act.publish (q.started k.1)).after σ) := rfl
  rw [hresult]
  cases told_traces h 0 .empty k us ((Act.publish (q.started k.1)).after σ) with
  | whole hok hwhole => exact .whole hok (hwhole.wrap (hname.started _) (hname.completed _ _) (hname.composed _ _))
  | broken hfail hbreaks =>
    refine .broken hfail (hbreaks.wrap (hname.started _) ?_)
    rw [status_of_isError hfail]
    exact hname.completed _ _

end Sequence

theorem Task.isNamed_sequence (t : Task) : t.sequence.IsNamed (.task t.name "Task") :=
  ⟨fun _ => rfl, fun _ _ => rfl, fun _ _ => rfl⟩

theorem Job.isNamed_sequence (j : Job) : j.sequence.IsNamed (.job j.name j.type) :=
  ⟨fun _ => rfl, fun _ _ => rfl, fun _ _ => rfl⟩

theorem Pipeline.isNamed_sequence (name : String) : (sequence name).IsNamed .pipeline :=
  ⟨fun _ => rfl, fun _ _ => rfl, fun _ _ => rfl⟩

theorem Task.told_run (t : Task) (c : Context) (input : Option Payload) (σ : Session) :
    Told ((t.run c input).result σ) ((t.run c input).trace σ) := by
  rw [run_eq]
  exact Sequence.told_run t.isNamed_sequence (fun s k => s.adds_run _ _) (fun s _ _ => s.told_run _ _ _) _ _ _

theorem Job.told_run (j : Job) (c : Context) (input : Option Payload) (σ : Session) :
    Told ((j.run c input).result σ) ((j.run c input).trace σ) := by
  rw [run_eq]
  exact Sequence.told_run j.isNamed_sequence (fun t k => t.adds_run _ _) (fun t _ _ => t.told_run _ _ _) _ _ _

theorem Pipeline.told_run (name : String) (jobs : List Job) (c : Context) (input : Option Payload) (σ : Session) :
    Told (((ofJobs name jobs).run c input).result σ) (((ofJobs name jobs).run c input).trace σ) := by
  rw [run_eq]
  exact Sequence.told_run (isNamed_sequence name) (fun j k => j.adds_run _ _) (fun j _ _ => j.told_run _ _ _) _ _ _

/-- The starts and completions of a pipeline are nested: at every level a unit adds its start, what its parts add up to the
first that fails, and its completion with the status of what it gives.  Each unit that starts is completed once and under
its name.  When the pipeline fails, so does a step; after the first such step the units around it are completed as failed,
and nothing else happens. -/
theorem Pipeline.run_nested (name : String) (jobs : List Job) (c : Context) (input : Option Payload) (σ : Session) :
    let p := (ofJobs name jobs).run c input
    p.trace σ = .pipelineStarted c ::
        ((sequence name).traces (c, input) jobs ((Act.publish (.pipelineStarted c)).after σ)).flatten ++
          [.pipelineCompleted c (p.result σ).status] ∧
    (∀ (j : Job) c input σ, (j.run c input).trace σ = .jobStarted c j.name j.type j.tasks.length ::
        (j.sequence.traces (c, input) j.tasks
          ((Act.publish (.jobStarted c j.name j.type j.tasks.length)).after σ)).flatten ++
          [.jobCompleted c j.name j.type ((j.run c input).result σ).status]) ∧
    (∀ (t : Task) c input σ, (t.run c input).trace σ = .taskStarted c t.name "Task" t.steps.length ::
        (t.sequence.traces (c, input) t.steps
          ((Act.publish (.taskStarted c t.name "Task" t.steps.length)).after σ)).flatten ++
          [.taskCompleted c t.name "Task" ((t.run c input).result σ).status]) ∧
    (∀ (s : Step) c input σ, (s.run c input).trace σ =
        [.stepStarted c s.name s.type, .stepCompleted c s.name s.type ((s.run c input).result σ).status]) ∧
    openUnits [] (p.trace σ) = some [] ∧
    ((p.result σ).isError = false ∧ (∀ e ∈ p.trace σ, e.failsStep = false) ∨
      (p.result σ).isError = true ∧ ∃ before e after opened, p.trace σ = before ++ e :: after ∧
        (∀ e ∈ before, e.failsStep = false) ∧ e.failsStep = true ∧ openUnits [] (before ++ [e]) = some opened ∧
        after.map Event.completed? = opened.map fun u => some (u, .error)) := by
  intro p
  -- one account of the whole run, from which the balance and the place of the failure are read off
  have htold := told_run name jobs c input σ
  refine ⟨?_, fun j c input σ => ?_, fun t c input σ => ?_, fun s c input σ => s.trace_run c input σ, htold.closes [], ?_⟩
  · show (Pipeline.run _ c input).trace σ = _ :: _ ++ [.pipelineCompleted c ((Pipeline.run _ c input).result σ).status]
    rw [run_eq]
    exact Sequence.trace_run (isNamed_sequence name) (fun j k => j.adds_run _ _) _ _ _
  · rw [Job.run_eq]
    exact Sequence.trace_run j.isNamed_sequence (fun t k => t.adds_run _ _) _ _ _
  · rw [Task.run_eq]
    exact Sequence.trace_run t.isNamed_sequence (fun s k => s.adds_run _ _) _ _ _
  · cases htold with
    | whole hpass hwhole => exact .inl ⟨hpass, hwhole.passes⟩
    | broken hfail hbreaks =>
      obtain ⟨before, e, after, opened, htrace, hbefore, he, hopen, hafter⟩ := hbreaks
      refine .inr ⟨hfail, before, e, after, opened, htrace, hbefore, he, ?_, hafter⟩
      rw [hopen, List.append_nil]

end FluentShift.Engine
