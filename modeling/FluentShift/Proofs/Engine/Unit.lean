import FluentShift.Engine.Unit
import FluentShift.Proofs.Files.Work
import FluentShift.Proofs.Metadata

/-!
# FluentShift.Proofs.Engine.Unit - what units do to the disk

`Act.Runs system a d Q`: in a session with the disk `d` under a system the act `a` comes to a result and a disk with `Q`.  A unit does to the
disk what its steps do; events and lines of the log do nothing.  What one unit gives, the next one gets (`Gives`).
-/

namespace FluentShift

namespace Result

variable {α : Type} (data : Option α) (warnings : List String) (metadata : Metadata)

@[simp] theorem finish_data : (finish data warnings metadata).data = data := by
  unfold finish
  split <;> rfl

@[simp] theorem finish_warnings : (finish data warnings metadata).warnings = warnings := by
  unfold finish
  split
  · rename_i h
    exact (List.isEmpty_iff.mp h).symm
  · rfl

@[simp] theorem finish_metadata : (finish data warnings metadata).metadata = metadata := by
  unfold finish
  split <;> rfl

@[simp] theorem failure_metadata (f : Failure) : (failure f metadata : Result α).metadata = metadata := rfl

@[simp] theorem isOk_finish : (finish data warnings metadata).isOk = true := by
  unfold finish
  split <;> rfl

end Result

end FluentShift

namespace FluentShift.Engine

open FluentShift.Files

/-! ### Acts -/

namespace Act

variable {α β : Type} {system : System} {d : Disk}

/-- In a session with a disk and under a system, which stays as it is, the act comes to a result and a disk with a property. -/
def Runs (system : System) (a : Act α) (d : Disk) (Q : α → Disk → Prop) : Prop :=
  ∀ s : Session, s.desk.disk = d → s.desk.system = system →
    Q (StateT.run a s).1 (StateT.run a s).2.desk.disk ∧ (StateT.run a s).2.desk.system = system

/-- What an act comes to in a new session. -/
theorem Runs.outcomeUnder {a : Act α} {Q : α → Disk → Prop} (h : a.Runs system d Q) (listening : Bool) :
    Q (a.outcomeUnder system d listening).1 (a.outcomeUnder system d listening).2.desk.disk :=
  (h ⟨.start system d, [], listening⟩ rfl rfl).1

theorem Runs.mono {a : Act α} {Q Q' : α → Disk → Prop} (h : a.Runs system d Q) (hQ : ∀ x d', Q x d' → Q' x d') :
    a.Runs system d Q' :=
  fun s hs hsystem => (h s hs hsystem).imp_left (hQ _ _)

section Rules

variable {Q : α → Disk → Prop}

theorem runs_pure {a : α} (h : Q a d) : Runs system (pure a) d Q := by
  rintro s rfl rfl
  exact ⟨h, rfl⟩

theorem runs_bind {a : Act β} {f : β → Act α} (h : a.Runs system d fun b d' => (f b).Runs system d' Q) : (a >>= f).Runs system d Q := by
  intro s hs hsystem
  rw [StateT.run_bind]
  obtain ⟨hrest, hsystem'⟩ := h s hs hsystem
  exact hrest _ rfl hsystem'

theorem runs_map {a : Act β} {f : β → α} (h : a.Runs system d fun b d' => Q (f b) d') : (f <$> a).Runs system d Q := by
  intro s hs hsystem
  rw [StateT.run_map]
  exact h s hs hsystem

theorem runs_work {β : Type} {w : Work β} {Q : Except Failure β → Disk → Prop} (h : w.Runs system d Q) : (work w).Runs system d Q := by
  rintro s rfl hsystem
  exact h s.desk rfl hsystem

theorem runs_publish {e : Event} {Q : Unit → Disk → Prop} (h : Q () d) : (publish e).Runs system d Q := by
  rintro s rfl hsystem
  exact ⟨h, hsystem⟩

theorem runs_log {level : Level} {text : String} {Q : Unit → Disk → Prop} (h : Q () d) : (log level text).Runs system d Q := by
  rintro s rfl hsystem
  exact ⟨h, hsystem⟩

theorem runs_publish_bind {e : Event} {f : Unit → Act α} (h : (f ()).Runs system d Q) : (publish e >>= f).Runs system d Q :=
  runs_bind (runs_publish h)

theorem runs_log_bind {level : Level} {text : String} {f : Unit → Act α} (h : (f ()).Runs system d Q) :
    (log level text >>= f).Runs system d Q :=
  runs_bind (runs_log h)

theorem runs_publishAll {c : Context} (ns : List Notice) {Q : PUnit → Disk → Prop} (h : Q ⟨⟩ d) :
    Runs system (ns.forM fun n => publish (.notice c n)) d Q := by
  induction ns with
  | nil => exact runs_pure h
  | cons n ns ih => exact runs_publish_bind ih

end Rules

/-- In every session with one of the disks `ds` the act comes to the same result, which has a property, and leaves the disk
as it is. -/
def Still (ds : Set Disk) (P : α → Prop) (a : Act α) : Prop :=
  ∃ x, P x ∧ ∀ system, ∀ d ∈ ds, a.Runs system d fun y d' => y = x ∧ d' = d

section Still

variable {ds : Set Disk} {P : α → Prop} {P' : β → Prop}

theorem Still.runs {a : Act α} (h : Still ds P a) (hd : d ∈ ds) : a.Runs system d fun x d' => P x ∧ d' = d := by
  obtain ⟨x, hx, ha⟩ := h
  exact (ha system d hd).mono fun y d' hy => ⟨hy.1 ▸ hx, hy.2⟩

theorem still_pure {x : α} (h : P x) : Still ds P (pure x) := ⟨x, h, fun _ _ _ => runs_pure ⟨rfl, rfl⟩⟩

theorem Still.bind {a : Act α} {f : α → Act β} (ha : Still ds P a) (hf : ∀ x, P x → Still ds P' (f x)) :
    Still ds P' (a >>= f) := by
  obtain ⟨x, hx, ha⟩ := ha
  obtain ⟨y, hy, hf⟩ := hf x hx
  refine ⟨y, hy, fun system d hd => runs_bind ((ha system d hd).mono fun z d' hz => ?_)⟩
  obtain ⟨rfl, rfl⟩ := hz
  exact hf system _ hd

theorem still_work {w : Work α} (h : w.Still ds P) : Still ds (fun e => ∀ x, e = .ok x → P x) (work w) := by
  obtain ⟨answer, hP, hw⟩ := h
  exact ⟨answer, hP, fun system d hd => runs_work (hw system d hd)⟩

theorem still_publish (e : Event) : Still ds (fun _ => True) (publish e) :=
  ⟨(), trivial, fun _ _ _ => runs_publish ⟨rfl, rfl⟩⟩

theorem still_log (level : Level) (text : String) : Still ds (fun _ => True) (log level text) :=
  ⟨(), trivial, fun _ _ _ => runs_log ⟨rfl, rfl⟩⟩

theorem still_publishAll (c : Context) (ns : List Notice) :
    Still ds (fun _ => True) (ns.forM fun n => publish (.notice c n)) :=
  ⟨⟨⟩, trivial, fun _ _ _ => runs_publishAll ns ⟨rfl, rfl⟩⟩

end Still

end Act

/-! ### Units that leave the disk alone -/

/-- Data that does not take the place of the context. -/
def Clear (p : Payload) : Prop := ∀ c, p ≠ .context c

/-- The result is a failure, or has data with a property. -/
def Gives (P : Payload → Prop) (r : Result Payload) : Prop := r.isError = false → ∃ p, r.data = some p ∧ P p

variable {c : Context} {input : Option Payload} {ds : Set Disk} {system : System} {d : Disk} {P P' : Payload → Prop}

theorem gives_failure {f : Failure} {metadata : Metadata} : Gives P (.failure f metadata) := fun h => by cases h

theorem gives_finish {p : Payload} {warnings : List String} {metadata : Metadata} (h : P p) :
    Gives P (.finish (some p) warnings metadata) :=
  fun _ => ⟨p, Result.finish_data _ _ _, h⟩

theorem handOn_clear {r : Result Payload} {p : Payload} (hr : r.data = some p) (h : Clear p) :
    handOn c input r = (c, some p) := by
  unfold handOn
  split
  · rename_i c' hdata
    rw [hr, Option.some.injEq] at hdata
    exact absurd hdata (h c')
  · rename_i hdata
    rw [← hdata, hr]
  · rename_i hdata
    rw [hr] at hdata
    cases hdata

/-- A step gives what its work gives. -/
theorem Step.still_run {s : Step} (h : (s.execute c input).Still ds fun r => Gives P r.result) :
    (s.run c input).Still ds (Gives P) := by
  have hend : ∀ {r : Result Payload}, Gives P r →
      Act.Still ds (Gives P) (do let r ← pure r; Act.publish (.stepCompleted c s.name s.type r.status); pure r) :=
    fun hr => (Act.still_pure hr).bind fun _ hr => (Act.still_publish _).bind fun _ _ => Act.still_pure hr
  refine (Act.still_publish _).bind fun _ _ => (Act.still_work h).bind fun e he => ?_
  cases e with
  | ok r => exact (Act.still_publishAll _ _).bind fun _ _ => hend (he r rfl)
  | error m => exact (Act.still_log _ _).bind fun _ _ => hend gives_failure

theorem Task.still_nil (t : Task) {i : Nat} {tally : Tally} {p : Payload} (h : P p) :
    (t.runSteps c i tally (some p) []).Still ds (Gives P) :=
  Act.still_pure (gives_finish h)

theorem Task.still_cons (t : Task) {i : Nat} {tally : Tally} {s : Step} {ss : List Step}
    (hs : (s.execute c input).Still ds fun r => Gives P r.result)
    (hrest : ∀ i tally p, P p → (t.runSteps c i tally (some p) ss).Still ds (Gives P')) :
    (t.runSteps c i tally input (s :: ss)).Still ds (Gives P') := by
  rw [runSteps]
  refine (Step.still_run hs).bind fun r hr => ?_
  split
  · exact (Act.still_log _ _).bind fun _ _ => Act.still_pure gives_failure
  · rename_i hok
    obtain ⟨p, hdata, hp⟩ := hr (Bool.eq_false_iff.mpr hok)
    rw [hdata]
    exact hrest _ _ p hp

/-- A job of one task gives what the steps of the task give. -/
theorem Job.still_run {name type : String} {t : Task} (hclear : ∀ p, P p → Clear p)
    (h : (t.runSteps c 0 .empty input t.steps).Still ds (Gives P)) :
    (Job.run ⟨name, type, [t]⟩ c input).Still ds (Gives P) := by
  refine (Act.still_publish _).bind fun _ _ => ?_
  have htask : (t.run c input).Still ds (Gives P) := (Act.still_publish _).bind fun _ _ => h.bind fun r hr =>
    (Act.still_publish _).bind fun _ _ => Act.still_pure hr
  refine htask.bind fun r hr => ?_
  split
  · exact (Act.still_log _ _).bind fun _ _ => (Act.still_publish _).bind fun _ _ => Act.still_pure gives_failure
  · rename_i hok
    obtain ⟨p, hdata, hp⟩ := hr (Bool.eq_false_iff.mpr hok)
    rw [handOn_clear hdata (hclear p hp)]
    exact (Act.still_publish _).bind fun _ _ => Act.still_pure (gives_finish hp)

/-! ### Units that do something -/

/-- All failures have the property. -/
def Fails (Q : Result Payload → Prop) : Prop := ∀ r, r.isError = true → Q r

theorem Fails.failure {Q : Result Payload → Prop} (h : Fails Q) (f : Failure) (metadata : Metadata) :
    Q (.failure f metadata) := h _ rfl

/-- What the work of the only step of a job has to come to for the job to come to `Q`. -/
def Comes (Q : Result Payload → Prop) : Except Failure Report → Prop
  | .ok r => Fails Q ∧ r.result.isError = true ∨
      ∃ p metadata, Clear p ∧ (metadata.map (·.1)).Nodup ∧ r.result = .success p metadata ∧ Q (.success p metadata)
  | .error _ => Fails Q

/-- A job of a single step does what the step does. -/
theorem Job.runs_single {name type taskName : String} {s : Step} {Q : Result Payload → Disk → Prop}
    (h : (s.execute c input).Runs system d fun e d' => Comes (Q · d') e) :
    (Job.run ⟨name, type, [⟨taskName, [s]⟩]⟩ c input).Runs system d Q := by
  have hpublish : ∀ {e : Event} {r : Result Payload} {d'} {Q : Result Payload → Disk → Prop}, Q r d' →
      (Act.publish e >>= fun _ => (pure r : Act _)).Runs system d' Q := fun h => Act.runs_publish_bind (Act.runs_pure h)
  -- how the step ends
  have hstep : (s.run c input).Runs system d fun r d' => Fails (Q · d') ∧ r.isError = true ∨
      ∃ p metadata, Clear p ∧ (metadata.map (·.1)).Nodup ∧ r = .success p metadata ∧ Q (.success p metadata) d' := by
    refine Act.runs_publish_bind (Act.runs_bind (Act.runs_work (h.mono fun e d' hd' => ?_)))
    cases e with
    | ok r => exact Act.runs_bind (Act.runs_publishAll _ (Act.runs_bind (Act.runs_pure (hpublish hd'))))
    | error m => exact Act.runs_log_bind (Act.runs_bind (Act.runs_pure (hpublish (.inl ⟨hd', rfl⟩))))
  -- how its task ends
  have htask : (Task.run ⟨taskName, [s]⟩ c input).Runs system d fun r d' => Fails (Q · d') ∧ r.isError = true ∨
      ∃ p metadata, Clear p ∧ (metadata.map (·.1)).Nodup ∧ r = .success p metadata ∧ Q (.success p metadata) d' := by
    refine Act.runs_publish_bind (Act.runs_bind (Act.runs_bind (hstep.mono fun r d' hr => ?_)))
    rcases hr with ⟨hfails, herror⟩ | ⟨p, metadata, hclear, hnodup, rfl, hQ⟩
    · rw [if_pos herror]
      exact Act.runs_log_bind (Act.runs_pure (hpublish (.inl ⟨hfails, rfl⟩)))
    · refine Act.runs_pure (hpublish (.inr ⟨p, metadata, hclear, hnodup, ?_, hQ⟩))
      exact congrArg (Result.success p) (Metadata.merge_nil hnodup)
  refine Act.runs_publish_bind (Act.runs_bind (htask.mono fun r d' hr => ?_))
  rcases hr with ⟨hfails, herror⟩ | ⟨p, metadata, hclear, hnodup, rfl, hQ⟩
  · rw [if_pos herror]
    exact Act.runs_log_bind (hpublish (hfails.failure _ _))
  · rw [handOn_clear rfl hclear]
    refine hpublish ?_
    show Q (.success p (Metadata.merge [] metadata)) d'
    rw [Metadata.merge_nil hnodup]
    exact hQ

/-! ### Pipelines -/

/-- What the jobs after one that leaves the disk alone do, they do with what that one gives. -/
theorem Pipeline.runs_stage_still (p : Pipeline) {start : Context} {i : Nat} {tally : Tally} {s : Stage}
    {ss : List Stage} {Q : Result Payload → Disk → Prop} (hs : (s.run c input).Still {d} (Gives P))
    (hclear : ∀ x, P x → Clear x) (hfails : Fails (Q · d))
    (hrest : ∀ i tally x, P x → (p.runStages start i tally c (some x) ss).Runs system d Q) :
    (p.runStages start i tally c input (s :: ss)).Runs system d Q := by
  rw [runStages]
  refine Act.runs_bind ((hs.runs (Set.mem_singleton d)).mono fun r d' hr => ?_)
  obtain ⟨hr, rfl⟩ := hr
  split
  · exact Act.runs_log_bind (Act.runs_publish_bind (Act.runs_pure (hfails.failure _ _)))
  · rename_i hok
    obtain ⟨x, hdata, hx⟩ := hr (Bool.eq_false_iff.mpr hok)
    rw [handOn_clear hdata (hclear x hx)]
    exact hrest _ _ x hx

theorem Pipeline.runs_last_stage (p : Pipeline) {start : Context} {i : Nat} {tally : Tally} {s : Stage}
    {Q : Result Payload → Disk → Prop} (hs : (s.run c input).Runs system d fun r d' => Fails (Q · d') ∧ r.isError = true ∨
      ∃ x, Clear x ∧ r.data = some x ∧ r.isError = false ∧
        ∀ warnings metadata, Q (.finish (some x) warnings (Metadata.merge metadata r.metadata)) d') :
    (p.runStages start i tally c input [s]).Runs system d Q := by
  rw [runStages]
  refine Act.runs_bind (hs.mono fun r d' hr => ?_)
  rcases hr with ⟨hfails, herror⟩ | ⟨x, hclear, hdata, hok, hQ⟩
  · rw [if_pos herror]
    exact Act.runs_log_bind (Act.runs_publish_bind (Act.runs_pure (hfails.failure _ _)))
  · rw [if_neg (by rw [hok]; exact Bool.false_ne_true), handOn_clear hdata hclear]
    exact Act.runs_publish_bind (Act.runs_pure (hQ _ _))

end FluentShift.Engine
