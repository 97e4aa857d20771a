import FluentShift.Proofs.Engine.Sequence
import FluentShift.Proofs.Engine.Unit

/-!
# FluentShift.Proofs.Engine.Answers - what units come to where the disk does not matter

`Answers e w`: the work `w` gives `e` on every disk, and leaves the disk as it is.  A unit whose work answers comes to data
with metadata or to a failure (`ComesTo`): a sequence comes to what its last part does if all parts pass (`comes_pass`),
and to the failure of the first one that does not (`comes_fail`).
-/

namespace FluentShift.Files.Work

/-! ### Work -/

variable {α β : Type}

/-- On every disk and under every system the work gives `e`, and leaves the disk as it is. -/
def Answers (e : Except Failure α) (w : Work α) : Prop := ∀ system d, w.Runs system d fun e' d' => e' = e ∧ d' = d

theorem answers_pure (a : α) : Answers (.ok a) (pure a) := fun _ _ => runs_pure ⟨rfl, rfl⟩

theorem answers_throw (f : Failure) : Answers (.error f) (throw f : Work α) := fun _ _ => runs_throw ⟨rfl, rfl⟩

theorem answers_ofExcept (e : Except Failure α) : Answers e (ofExcept e) := fun _ _ => runs_ofExcept ⟨rfl, rfl⟩

theorem answers_ofRun (r : Run α) : Answers r.value (ofRun r) := fun _ _ => runs_ofRun ⟨rfl, rfl⟩

theorem Answers.congr {e e' : Except Failure α} {w : Work α} (hw : Answers e w) (h : e = e') : Answers e' w := h ▸ hw

theorem Answers.then {e : Except Failure β} {a : α} {w : Work α} {f : α → Work β} (hw : Answers (.ok a) w)
    (hf : Answers e (f a)) : Answers e (w >>= f) := by
  refine fun system d => runs_bind ((hw system d).mono fun e' d' h => ?_)
  obtain ⟨rfl, rfl⟩ := h
  exact hf system d'

theorem Answers.fails {m : Failure} {w : Work α} {f : α → Work β} (hw : Answers (.error m) w) :
    Answers (.error m) (w >>= f) := by
  refine fun system d => runs_bind ((hw system d).mono fun e' d' h => ?_)
  obtain ⟨rfl, rfl⟩ := h
  exact ⟨rfl, rfl⟩

theorem Answers.bind {e : Except Failure α} {g : α → Except Failure β} {w : Work α} {f : α → Work β} (hw : Answers e w)
    (hf : ∀ a, Answers (g a) (f a)) : Answers (e >>= g) (w >>= f) := by
  cases e with
  | ok a => exact hw.then (hf a)
  | error m => exact hw.fails

theorem Answers.tried {a : α} {w : Work α} {f : Failure → Work α} (hw : Answers (.ok a) w) :
    Answers (.ok a) (tryCatch w f) := by
  refine fun system d => runs_tryCatch ((hw system d).mono fun e' d' h => ?_)
  obtain ⟨rfl, rfl⟩ := h
  exact ⟨rfl, rfl⟩

theorem Answers.handled {e : Except Failure α} {m : Failure} {w : Work α} {f : Failure → Work α}
    (hw : Answers (.error m) w) (hf : Answers e (f m)) : Answers e (tryCatch w f) := by
  refine fun system d => runs_tryCatch ((hw system d).mono fun e' d' h => ?_)
  obtain ⟨rfl, rfl⟩ := h
  exact hf system d'

end FluentShift.Files.Work

namespace FluentShift.Engine

open FluentShift.Files

/-! ### What a unit comes to -/

/-- The result has data and metadata, each key once, or says why there is none. -/
def ComesTo (e : Except Failure (Payload × Metadata)) (r : Result Payload) : Prop :=
  match e with
  | .ok (p, m) => r = .success p m ∧ (m.map (·.1)).Nodup
  | .error f => r.isError = true ∧ r.error = some f

/-- What the work of a step comes to. -/
def Reports (e : Except Failure (Payload × Metadata)) : Except Failure Report → Prop
  | .ok report => ComesTo e report.result
  | .error f => e = .error f

variable {c : Context} {input : Option Payload} {e : Except Failure (Payload × Metadata)} {f : Failure} {p : Payload}
  {m : Metadata}

theorem comesTo_failure : ComesTo (.error f) (.failure f m) := ⟨rfl, rfl⟩

/-- A step comes to what its work comes to. -/
theorem Step.comes_run {s : Step} {answer : Except Failure Report} (h : (s.execute c input).Answers answer)
    (he : Reports e answer) : (s.run c input).Still Set.univ (ComesTo e) := by
  have hend : ∀ {r : Result Payload}, ComesTo e r →
      Act.Still Set.univ (ComesTo e) (do let r ← pure r; Act.publish (.stepCompleted c s.name s.type r.status); pure r) :=
    fun hr => (Act.still_pure hr).bind fun _ hr => (Act.still_publish _).bind fun _ _ => Act.still_pure hr
  have hwork : Act.Still Set.univ (· = answer) (Act.work (s.execute c input)) := ⟨answer, rfl, fun system d _ => Act.runs_work (h system d)⟩
  refine (Act.still_publish _).bind fun _ _ => hwork.bind fun a ha => ?_
  subst ha
  cases a with
  | ok report => exact (Act.still_publishAll _ _).bind fun _ _ => hend he
  | error f =>
    cases he
    exact (Act.still_log _ _).bind fun _ _ => hend comesTo_failure

/-! ### Sequences -/

namespace Sequence

variable {U : Type} {q : Sequence U} {k : Baton} {u : U} {us : List U} {i : Nat} {P : Result Payload → Prop}

theorem comes_nil (hm : (m.map (·.1)).Nodup) : (q.loop i ⟨[], m⟩ (c, some p) []).Still Set.univ (ComesTo (.ok (p, m))) :=
  Act.still_pure ⟨rfl, hm⟩

/-- A part that passes is followed by those after it, with what it gave. -/
theorem comes_pass {m' : Metadata} (hu : (q.act u k).Still Set.univ (ComesTo (.ok (p, m'))))
    (hnext : q.next k (.success p m') = (k.1, some p))
    (hrest : (q.loop (i + 1) ⟨[], m.merge m'⟩ (k.1, some p) us).Still Set.univ P) : (q.loop i ⟨[], m⟩ k (u :: us)).Still Set.univ P := by
  rw [loop]
  refine hu.bind fun r hr => ?_
  obtain ⟨rfl, -⟩ := hr
  rw [if_neg (show ¬(Result.success p m').isError = true from Bool.false_ne_true), hnext]
  exact hrest

/-- The failure of a part is that of the sequence. -/
theorem comes_fail {tally : Tally} (hu : (q.act u k).Still Set.univ (ComesTo (.error f))) :
    (q.loop i tally k (u :: us)).Still Set.univ (ComesTo (.error f)) := by
  rw [loop]
  refine hu.bind fun r hr => ?_
  obtain ⟨herror, hf⟩ := hr
  rw [if_pos herror]
  refine (Act.still_log _ _).bind fun _ _ => Act.still_pure ⟨rfl, ?_⟩
  show some (r.error.getD _) = _
  rw [hf]
  rfl

/-- A part that gives something is followed by those after it, with what it gave. -/
theorem comes_bind {α : Type} {a : Except Failure α} {data : α → Payload × Metadata}
    {rest : α → Except Failure (Payload × Metadata)} (hu : (q.act u k).Still Set.univ (ComesTo (a.map data)))
    (hnext : ∀ x, q.next k (.success (data x).1 (data x).2) = (k.1, some (data x).1))
    (hrest : ∀ x, a = .ok x →
      (q.loop (i + 1) ⟨[], m.merge (data x).2⟩ (k.1, some (data x).1) us).Still Set.univ (ComesTo (rest x))) :
    (q.loop i ⟨[], m⟩ k (u :: us)).Still Set.univ (ComesTo (a >>= rest)) := by
  cases a with
  | error f => exact comes_fail hu
  | ok x => exact comes_pass hu (hnext x) (hrest x rfl)

theorem comes_run (h : (q.loop 0 .empty k us).Still Set.univ P) : (q.run k us).Still Set.univ P :=
  (Act.still_publish _).bind fun _ _ => h.bind fun _ hr => (Act.still_publish _).bind fun _ _ => Act.still_pure hr

end Sequence

/-- A job of one task comes to what the task comes to. -/
theorem Job.comes_run {name type : String} {t : Task} (h : (t.sequence.loop 0 .empty (c, input) t.steps).Still Set.univ (ComesTo e))
    (hclear : ∀ p m, e = .ok (p, m) → Clear p) : (Job.run ⟨name, type, [t]⟩ c input).Still Set.univ (ComesTo e) := by
  have htask : (t.run c input).Still Set.univ (ComesTo e) := by
    rw [Task.run_eq]
    exact Sequence.comes_run h
  rw [Job.run_eq]
  refine Sequence.comes_run ?_
  -- the job adds nothing of its own to the one task
  cases e with
  | error f => exact Sequence.comes_fail htask
  | ok x =>
    obtain ⟨p, m⟩ := x
    have hm : (m.map (·.1)).Nodup := by
      obtain ⟨r, hr, -⟩ := htask
      exact hr.2
    refine Sequence.comes_pass htask (handOn_clear rfl (hclear p m rfl)) ?_
    rw [Metadata.merge_nil hm]
    exact Sequence.comes_nil hm

/-! ### Pipelines of stages -/

/-- How a pipeline runs its stages. -/
def Pipeline.stageSequence (p : Pipeline) : Sequence Stage where
  act s k := s.run k.1 k.2
  next k r := handOn k.1 k.2 r
  blame i s := ⟨"Job " ++ s.name ++ " failed, aborting pipeline " ++ p.name,
    "Pipeline " ++ p.name ++ " failed at job " ++ s.name,
    [("pipeline", .text p.name), ("failed_job", .text s.name), ("job_index", .ofNat i)]⟩
  started c := .pipelineStarted c
  completed c := .pipelineCompleted c

theorem Pipeline.runStages_eq_loop (p : Pipeline) (start : Context) (i : Nat) (tally : Tally) (c : Context)
    (input : Option Payload) (ss : List Stage) :
    p.runStages start i tally c input ss = (do
      let r ← p.stageSequence.loop i tally (c, input) ss
      Act.publish (.pipelineCompleted start r.status)
      return r) := by
  induction ss generalizing i tally c input with
  | nil => rfl
  | cons s ss ih =>
    rw [runStages, Sequence.loop, bind_assoc]
    refine congrArg (s.run c input >>= ·) (funext fun r => ?_)
    by_cases hr : r.isError = true
    · rw [if_pos hr, if_pos hr, status_of_isError hr]
      rfl
    · rw [if_neg hr, if_neg hr]
      exact ih _ _ _ _

/-- A pipeline is the sequence of its stages. -/
theorem Pipeline.run_eq_stages (p : Pipeline) : p.run c input = p.stageSequence.run (c, input) p.stages := by
  rw [run, runStages_eq_loop]
  rfl

end FluentShift.Engine
