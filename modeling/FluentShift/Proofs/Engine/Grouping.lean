import FluentShift.Engine.Script
import FluentShift.Proofs.Metadata
import FluentShift.Proofs.Engine.Sequence
import FluentShift.Proofs.Engine.Unit
import Mathlib.Data.List.ReduceOption

/-!
# FluentShift.Proofs.Engine.Grouping - steps in tasks, tasks in jobs

However the steps of a pipeline are put into tasks and jobs, the same of them are run, on the same disk and with the same
data.  `Step.row` runs steps without any grouping, and `Pipeline.run_grouped` says what a pipeline makes of what they
came to.
-/

namespace FluentShift.Engine

open FluentShift.Files

/-! ### Steps without a grouping -/

/-- Runs steps one after the other up to the first that fails, and gives what each of them came to.  A step gets the last
data that there was before it. -/
def Step.row (c : Context) : Option Payload → List Step → Act (List (Result Payload))
  | _, [] => return []
  | input, s :: ss => do
    let r ← s.run c input
    if r.isError then return [r]
    else
      let rs ← row c (r.data <|> input) ss
      return r :: rs

/-- The steps of a job in order. -/
def Job.steps (j : Job) : List Step := j.tasks.flatMap Task.steps

/-- All results are of units that did not fail. -/
def AllPass (rs : List (Result Payload)) : Prop := ∀ r ∈ rs, r.isError = false

/-- The last data that there is among the input and the data of results. -/
def lastData (input : Option Payload) (rs : List (Result Payload)) : Option Payload :=
  (input :: rs.map (·.data)).reduceOption.getLast?

/-- The metadata of results from left to right; a later one wins. -/
def unionOf (rs : List (Result Payload)) : Metadata := (rs.map (·.metadata)).foldl Metadata.merge []

/-- The warnings of results from left to right. -/
def warningsOf (rs : List (Result Payload)) : List String := rs.flatMap (·.warnings)

section Data

variable {input : Option Payload} {r : Result Payload} {rs rs' : List (Result Payload)}

theorem lastData_nil : lastData input [] = input := by cases input <;> rfl

theorem lastData_cons : lastData input (r :: rs) = lastData (r.data <|> input) rs := by
  unfold lastData
  rw [List.map_cons]
  cases hr : r.data with
  | none => cases input <;> rfl
  | some p =>
    cases input with
    | none => rfl
    | some p' => exact List.getLast?_cons_cons

theorem lastData_append : lastData input (rs ++ rs') = lastData (lastData input rs) rs' := by
  induction rs generalizing input with
  | nil => rw [List.nil_append, lastData_nil]
  | cons r rs ih => rw [List.cons_append, lastData_cons, ih, lastData_cons]

theorem lastData_orElse : (lastData input rs <|> input) = lastData input rs := by
  cases input with
  | none => cases lastData none rs <;> rfl
  | some p =>
    have hsome : (lastData (some p) rs).isSome = true := by
      show (p :: (rs.map (·.data)).reduceOption).getLast?.isSome = true
      rw [List.getLast?_cons]
      rfl
    obtain ⟨p', hp'⟩ := Option.isSome_iff_exists.mp hsome
    rw [hp']
    rfl

/-- What is said of the input and of the data of results can be said of the last data. -/
theorem of_mem_lastData {P : Payload → Prop} (hinput : ∀ p ∈ input, P p) (hrs : ∀ r ∈ rs, ∀ p ∈ r.data, P p) :
    ∀ p ∈ lastData input rs, P p := by
  intro p hp
  have hmem : p ∈ (input :: rs.map (·.data)).reduceOption := List.mem_of_getLast? hp
  rw [List.reduceOption_mem_iff, List.mem_cons, List.mem_map] at hmem
  rcases hmem with h | ⟨r, hr, h⟩
  · exact hinput p h.symm
  · exact hrs r hr p h

end Data

/-! ### What a sequence makes of results -/

/-- A tally with more results. -/
def Tally.after (tally : Tally) (rs : List (Result Payload)) : Tally := rs.foldl Tally.add tally

theorem Tally.after_append (tally : Tally) (rs rs' : List (Result Payload)) :
    tally.after (rs ++ rs') = (tally.after rs).after rs' := List.foldl_append

theorem Tally.after_warnings (tally : Tally) (rs : List (Result Payload)) :
    (tally.after rs).warnings = tally.warnings ++ warningsOf rs := by
  induction rs generalizing tally with
  | nil => exact (List.append_nil _).symm
  | cons r rs ih =>
    refine (ih (tally.add r)).trans ?_
    rw [warningsOf, warningsOf, List.flatMap_cons, ← List.append_assoc]
    rfl

theorem Tally.after_metadata (tally : Tally) (rs : List (Result Payload)) :
    (tally.after rs).metadata = (rs.map (·.metadata)).foldl Metadata.merge tally.metadata := by
  induction rs generalizing tally with
  | nil => rfl
  | cons r rs ih => exact ih (tally.add r)

theorem merge_unionOf (m : Metadata) (rs : List (Result Payload)) :
    m.merge (unionOf rs) = (rs.map (·.metadata)).foldl Metadata.merge m :=
  (@List.foldl_assoc _ Metadata.merge _ _ m []).symm

theorem Tally.after_empty (rs : List (Result Payload)) : Tally.empty.after rs = ⟨warningsOf rs, unionOf rs⟩ := by
  show Tally.mk (Tally.empty.after rs).warnings (Tally.empty.after rs).metadata = _
  rw [after_warnings, after_metadata]
  rfl

/-- The result of parts that all passed. -/
def total (tally : Tally) (input : Option Payload) (rs : List (Result Payload)) : Result Payload :=
  .finish (lastData input rs) (tally.after rs).warnings (tally.after rs).metadata

/-- The result of parts of which the last one failed. -/
def breakOff (tally : Tally) (rs : List (Result Payload)) (r : Result Payload) (words : String) (place : Metadata) :
    Result Payload :=
  .failure (r.error.getD (.mishap .state words)) ((tally.after (rs ++ [r])).metadata.merge place)

section Sums

variable {tally : Tally} {input : Option Payload} {rs rs' : List (Result Payload)}

theorem isError_total : (total tally input rs).isError = false := by
  unfold total Result.finish
  split <;> rfl

theorem total_append : total tally input (rs ++ rs') = total (tally.after rs) (lastData input rs) rs' := by
  rw [total, total, lastData_append, Tally.after_append]

/-- A part that summed up its own parts counts as much as they do. -/
theorem Tally.add_total : tally.add (total .empty input rs) = tally.after rs := by
  show _ = Tally.mk (tally.after rs).warnings (tally.after rs).metadata
  rw [after_warnings, after_metadata, ← merge_unionOf, add, total, Result.finish_warnings, Result.finish_metadata,
    after_empty]

/-- A part that broke off breaks off what it is a part of, with one more place. -/
theorem failure_breakOff {r : Result Payload} {words words' : String} {place place' : Metadata} :
    tally.failure (breakOff .empty rs r words place) words' place' = breakOff tally rs r words (place ++ place') := by
  have hmetadata : ((tally.add (breakOff .empty rs r words place)).metadata.merge place') =
      (tally.after (rs ++ [r])).metadata.merge (place ++ place') := by
    show (tally.metadata.merge ((Tally.empty.after (rs ++ [r])).metadata.merge place)).merge place' = _
    rw [Tally.after_empty, Tally.after_metadata, ← merge_unionOf, ← Metadata.merge_assoc]
    exact List.foldl_append.symm
  rw [Tally.failure, hmetadata]
  rfl

end Sums

/-! ### Sessions in which the same was done -/

/-- Whether an event is about a step, or said by one. -/
def Event.isOfStep : Event → Bool
  | .stepStarted .. | .stepCompleted .. | .notice .. => true
  | _ => false

/-- On both disks there is the same, and the same was said by and about steps. -/
structure Session.Akin (σ τ : Session) : Prop where
  disk : σ.desk.disk = τ.desk.disk
  steps : σ.events.filter Event.isOfStep = τ.events.filter Event.isOfStep

theorem Session.Akin.symm {σ τ : Session} (h : σ.Akin τ) : τ.Akin σ := ⟨h.disk.symm, h.steps.symm⟩

theorem Session.Akin.trans {σ τ υ : Session} (h : σ.Akin τ) (h' : τ.Akin υ) : σ.Akin υ :=
  ⟨h.disk.trans h'.disk, h.steps.trans h'.steps⟩

/-- A step finds the same in both sessions. -/
structure Session.Alike (σ τ : Session) : Prop where
  desk : σ.desk = τ.desk
  listening : σ.listening = τ.listening
  steps : σ.events.filter Event.isOfStep = τ.events.filter Event.isOfStep

section Alike

variable {α : Type} {σ τ : Session}

theorem Session.Alike.refl (σ : Session) : σ.Alike σ := ⟨rfl, rfl, rfl⟩

theorem Session.Alike.akin (h : σ.Alike τ) : σ.Akin τ := ⟨congrArg Desk.disk h.desk, h.steps⟩

/-- An act does the same in sessions that are alike. -/
theorem Act.Adds.alike {a : Act α} (ha : a.Adds) (h : σ.Alike τ) :
    a.result σ = a.result τ ∧ (a.after σ).Alike (a.after τ) := by
  obtain ⟨x, desk, new, hrun⟩ := ha σ.desk σ.listening
  have hσ : StateT.run a σ = (x, ⟨desk, σ.events ++ new, σ.listening⟩) := hrun σ.events
  have hτ : StateT.run a τ = (x, ⟨desk, τ.events ++ new, σ.listening⟩) := by
    rw [← hrun τ.events, h.desk, h.listening]
  rw [result, result, after, after, hσ, hτ]
  refine ⟨rfl, rfl, rfl, ?_⟩
  rw [List.filter_append, List.filter_append, h.steps]

/-- An event that is not about a step and that no log writer has a line for. -/
def Event.IsQuiet (e : Event) : Prop := e.isOfStep = false ∧ e.logLine? = none

theorem Session.Alike.publish {e : Event} (he : e.IsQuiet) (h : σ.Alike τ) : ((Act.publish e).after σ).Alike τ := by
  refine ⟨?_, h.listening, ?_⟩
  · show { σ.desk with log := σ.desk.log ++ if σ.listening then e.logLine?.toList else [] } = τ.desk
    rw [he.2, ← h.desk]
    simp
  · show (σ.events ++ [e]).filter _ = _
    rw [List.filter_append, List.filter_singleton, he.1, h.steps]
    exact List.append_nil _

theorem Session.Akin.publish {e : Event} (he : e.isOfStep = false) (h : σ.Akin τ) : ((Act.publish e).after σ).Akin τ := by
  refine ⟨h.disk, ?_⟩
  show (σ.events ++ [e]).filter _ = _
  rw [List.filter_append, List.filter_singleton, he, h.steps]
  exact List.append_nil _

theorem Session.Akin.log {level : Level} {text : String} (h : σ.Akin τ) : ((Act.log level text).after σ).Akin τ :=
  ⟨h.disk, h.steps⟩

end Alike

/-! ### Rows -/

section Row

variable {c : Context} {input : Option Payload}

/-- A step that fails ends a row. -/
theorem Step.row_of_fail {s : Step} {σ : Session} (ss : List Step) (h : ((s.run c input).result σ).isError = true) :
    (row c input (s :: ss)).result σ = [(s.run c input).result σ] ∧
      (row c input (s :: ss)).after σ = (s.run c input).after σ := by
  rw [row, Act.result_bind, Act.after_bind, if_pos h]
  exact ⟨rfl, rfl⟩

/-- A step that passes is followed by those after it. -/
theorem Step.row_of_pass {s : Step} {σ : Session} (ss : List Step) (h : ((s.run c input).result σ).isError = false) :
    (row c input (s :: ss)).result σ = (s.run c input).result σ ::
        (row c (((s.run c input).result σ).data <|> input) ss).result ((s.run c input).after σ) ∧
      (row c input (s :: ss)).after σ =
        (row c (((s.run c input).result σ).data <|> input) ss).after ((s.run c input).after σ) := by
  rw [row, Act.result_bind, Act.after_bind, if_neg (Bool.eq_false_iff.mp h)]
  exact ⟨rfl, rfl⟩

/-- Steps are followed by those after them when all of them passed. -/
theorem Step.row_append (c : Context) (input : Option Payload) (ss ss' : List Step) :
    row c input (ss ++ ss') = (do
      let rs ← row c input ss
      if rs.any (·.isError) then return rs
      else
        let rs' ← row c (lastData input rs) ss'
        return rs ++ rs') := by
  induction ss generalizing input with
  | nil =>
    rw [List.nil_append, row, pure_bind, List.any_nil, if_neg Bool.false_ne_true, lastData_nil]
    exact (bind_pure _).symm
  | cons s ss ih =>
    rw [List.cons_append, row, row, bind_assoc]
    -- after the first step both rows end, or both go on with what it gave
    refine congrArg (s.run c input >>= ·) (funext fun r => ?_)
    cases hr : r.isError with
    | true =>
      rw [if_pos rfl, if_pos rfl, pure_bind, List.any_cons, hr, Bool.true_or, if_pos rfl]
    | false =>
      rw [if_neg Bool.false_ne_true, if_neg Bool.false_ne_true, ih, bind_assoc, bind_assoc]
      refine congrArg (row c _ ss >>= ·) (funext fun rs => ?_)
      rw [pure_bind, List.any_cons, hr, Bool.false_or, lastData_cons]
      split
      · exact pure_bind _ _
      · rw [bind_assoc]
        exact congrArg (row c _ ss' >>= ·) (funext fun rs' => pure_bind _ _)

theorem any_isError {rs : List (Result Payload)} : (rs.any (·.isError)) = false ↔ AllPass rs := by
  rw [List.any_eq_false]
  exact forall₂_congr fun _ _ => Bool.eq_false_iff.symm

theorem Step.row_append_of_pass {ss : List Step} {σ : Session} (ss' : List Step) (h : AllPass ((row c input ss).result σ)) :
    (row c input (ss ++ ss')).result σ = (row c input ss).result σ ++
        (row c (lastData input ((row c input ss).result σ)) ss').result ((row c input ss).after σ) ∧
      (row c input (ss ++ ss')).after σ =
        (row c (lastData input ((row c input ss).result σ)) ss').after ((row c input ss).after σ) := by
  rw [row_append, Act.result_bind, Act.after_bind, any_isError.mpr h, if_neg Bool.false_ne_true]
  exact ⟨rfl, rfl⟩

theorem Step.row_append_of_fail {ss : List Step} {σ : Session} (ss' : List Step) (h : ¬AllPass ((row c input ss).result σ)) :
    (row c input (ss ++ ss')).result σ = (row c input ss).result σ ∧
      (row c input (ss ++ ss')).after σ = (row c input ss).after σ := by
  rw [row_append, Act.result_bind, Act.after_bind, if_pos (Bool.not_eq_false _ ▸ mt any_isError.mp h)]
  exact ⟨rfl, rfl⟩

end Row

/-! ### Sequences sum up their steps -/

/-- What a result is blamed on: given the number of the step that failed, the words for a failure that has none, and
where the step stands. -/
abbrev Faults := Nat → String → Metadata → Prop

/-- What became of steps without a grouping, and of the same steps in a sequence: all passed, and the sequence gives what
they came to, or one failed, and the sequence breaks off with it. -/
inductive Summed (tally : Tally) (input : Option Payload) (ss : List Step) (faults : Faults)
    (rs : List (Result Payload)) (r : Result Payload) (σ τ : Session) : Prop
  | passed (hall : AllPass rs) (hlength : rs.length = ss.length) (hr : r = total tally input rs) (hσ : σ.Alike τ)
  | failed (rs' : List (Result Payload)) (r' : Result Payload) (words : String) (place : Metadata) (hrs : rs = rs' ++ [r'])
      (hall : AllPass rs') (hfail : r'.isError = true) (hfaults : faults rs'.length words place)
      (hr : r = breakOff tally rs' r' words place) (hσ : σ.Akin τ)

/-- The results have no data that takes the place of the context. -/
def AllClear (rs : List (Result Payload)) : Prop := ∀ r ∈ rs, ∀ p ∈ r.data, Clear p

/-- The act does in every session what the steps do in one that is like it, and sums up what they came to. -/
def SumsUp (a : Act (Result Payload)) (c : Context) (input : Option Payload) (ss : List Step) (faults : Faults)
    (tally : Tally) : Prop :=
  ∀ σ τ, σ.Alike τ → AllClear ((Step.row c input ss).result τ) →
    Summed tally input ss faults ((Step.row c input ss).result τ) (a.result σ) (a.after σ) ((Step.row c input ss).after τ)

section Sequences

variable {c : Context} {input : Option Payload}

/-- What a task says about a step that failed, among steps that have numbers from `i` on. -/
def Task.FaultsFrom (t : Task) (i : Nat) (ss : List Step) : Faults := fun n words place =>
  ∃ before s after, ss = before ++ s :: after ∧ n = before.length ∧
    words = "Task " ++ t.name ++ " failed at step " ++ s.name ∧
    place = [("task", .text t.name), ("failed_step", .text s.name), ("step_index", .ofNat (before.length + i))]

/-- Results of parts that passed come before what became of those after them. -/
theorem Summed.append {tally : Tally} {ss ss' : List Step} {faults faults' : Faults} {rs rs' : List (Result Payload)}
    {x : Result Payload} {σ τ : Session} (hall : AllPass rs) (hlength : rs.length = ss.length)
    (hfaults : ∀ n words place, faults n words place → faults' (ss.length + n) words place)
    (h : Summed (tally.after rs) (lastData input rs) ss' faults rs' x σ τ) :
    Summed tally input (ss ++ ss') faults' (rs ++ rs') x σ τ := by
  cases h with
  | passed hall' hlength' hx hσ =>
    refine .passed (List.forall_mem_append.mpr ⟨hall, hall'⟩) ?_ (hx.trans total_append.symm) hσ
    rw [List.length_append, List.length_append, hlength, hlength']
  | failed rs₁ r words place hrs hall' hfail hblame hx hσ =>
    refine .failed (rs ++ rs₁) r words place ?_ (List.forall_mem_append.mpr ⟨hall, hall'⟩) hfail ?_ ?_ hσ
    · rw [hrs, List.append_assoc]
    · rw [List.length_append, hlength]
      exact hfaults _ _ _ hblame
    · rw [hx, breakOff, breakOff, List.append_assoc, Tally.after_append _ rs]

theorem Task.sumsUp_loop (t : Task) (i : Nat) (tally : Tally) (input : Option Payload) (ss : List Step) :
    SumsUp (t.sequence.loop i tally (c, input) ss) c input ss (t.FaultsFrom i ss) tally := by
  induction ss generalizing i tally input with
  | nil =>
    intro σ τ hσ _
    refine .passed (fun r hr => absurd hr List.not_mem_nil) rfl ?_ hσ
    show Result.finish input tally.warnings tally.metadata = .finish (lastData input []) tally.warnings tally.metadata
    rw [lastData_nil]
  | cons s ss ih =>
    intro σ τ hσ hclear
    obtain ⟨hr, hafter⟩ := (s.adds_run c input).alike hσ
    have hact : (t.sequence.act s (c, input)).result σ = (s.run c input).result τ := hr
    cases herror : ((s.run c input).result τ).isError with
    | true =>
      -- the row ends with this step, and the task breaks off with it
      obtain ⟨hrow, hrowAfter⟩ := Step.row_of_fail ss herror
      obtain ⟨hloop, hloopAfter⟩ := Sequence.loop_of_fail (q := t.sequence) i tally ss
        (show ((t.sequence.act s (c, input)).result σ).isError = true by rw [hact]; exact herror)
      rw [hrow, hrowAfter, hloop, hloopAfter, hact]
      refine .failed [] _ _ (t.sequence.blame i s).place rfl (fun r hr => absurd hr List.not_mem_nil) herror
        ⟨[], s, ss, rfl, rfl, rfl, ?_⟩ rfl hafter.akin.log
      rw [List.length_nil, Nat.zero_add]
      rfl
    | false =>
      -- the sessions after the step are alike again, so the rest of the row is the rest of the task
      obtain ⟨hrow, hrowAfter⟩ := Step.row_of_pass ss herror
      obtain ⟨hloop, hloopAfter⟩ := Sequence.loop_of_pass (q := t.sequence) i tally ss
        (show ((t.sequence.act s (c, input)).result σ).isError = false by rw [hact]; exact herror)
      rw [hrow] at hclear ⊢
      rw [hrowAfter, hloop, hloopAfter, hact]
      have hrest := ih (i + 1) (tally.after [(s.run c input).result τ]) _ _ _ hafter
        fun r hr => hclear r (List.mem_cons_of_mem _ hr)
      have hdata : lastData input [(s.run c input).result τ] = (((s.run c input).result τ).data <|> input) := by
        rw [lastData_cons, lastData_nil]
      show Summed _ _ ([s] ++ ss) _ ([(s.run c input).result τ] ++ _) _ _ _
      refine Summed.append (List.forall_mem_singleton.mpr herror) rfl ?_ (by rw [hdata]; exact hrest)
      rintro n words place ⟨before, s', after, rfl, rfl, hwords, rfl⟩
      refine ⟨s :: before, s', after, rfl, Nat.add_comm _ _, hwords, ?_⟩
      rw [List.length_cons, Nat.add_right_comm, Nat.add_assoc]

/-- The events of a unit are not about steps, and no log writer has a line for them. -/
def Sequence.IsQuiet {U : Type} (q : Sequence U) : Prop :=
  (∀ c, (q.started c).IsQuiet) ∧ ∀ c status, (q.completed c status).IsQuiet

/-- A sequence between quiet events does what it does without them. -/
theorem SumsUp.run {U : Type} {q : Sequence U} {us : List U} {ss : List Step} {faults : Faults}
    (hquiet : q.IsQuiet) (h : SumsUp (q.loop 0 .empty (c, input) us) c input ss faults .empty) :
    SumsUp (q.run (c, input) us) c input ss faults .empty := by
  intro σ τ hσ hclear
  have hloop := h _ τ (hσ.publish (hquiet.1 c)) hclear
  show Summed _ _ _ _ _ _ ((Act.publish _).after _) _
  cases hloop with
  | passed hall hlength hr hσ => exact .passed hall hlength hr (hσ.publish (hquiet.2 _ _))
  | failed rs r words place hrs hall hfail hfaults hr hσ =>
    exact .failed rs r words place hrs hall hfail hfaults hr (hσ.publish (hquiet.2 _ _).1)

/-- What a sequence says about a step that failed in one of its parts, which have numbers from `i` on. -/
def Sequence.FaultsFrom {U : Type} (q : Sequence U) (stepsOf : U → List Step) (inner : U → Faults) (i : Nat)
    (us : List U) : Faults := fun n words place =>
  ∃ before u after m inside, us = before ++ u :: after ∧ n = (before.flatMap stepsOf).length + m ∧
    inner u m words inside ∧ place = inside ++ (q.blame (before.length + i) u).place

/-- A sequence of parts that sum up their steps sums up the steps of all of them. -/
theorem Sequence.sumsUp_loop {U : Type} {q : Sequence U} {stepsOf : U → List Step} {inner : U → Faults}
    (hact : ∀ u input, (∀ p ∈ input, Clear p) → SumsUp (q.act u (c, input)) c input (stepsOf u) (inner u) .empty)
    (hnext : ∀ input r, (∀ p ∈ r.data, Clear p) → q.next (c, input) r = (c, r.data <|> input))
    (i : Nat) (tally : Tally) (input : Option Payload) (hinput : ∀ p ∈ input, Clear p) (us : List U) :
    SumsUp (q.loop i tally (c, input) us) c input (us.flatMap stepsOf) (q.FaultsFrom stepsOf inner i us) tally := by
  induction us generalizing i tally input with
  | nil =>
    intro σ τ hσ _
    refine .passed (fun r hr => absurd hr List.not_mem_nil) rfl ?_ hσ
    show Result.finish input tally.warnings tally.metadata = .finish (lastData input []) tally.warnings tally.metadata
    rw [lastData_nil]
  | cons u us ih =>
    intro σ τ hσ hclear
    rw [List.flatMap_cons] at hclear ⊢
    have hinner : AllClear ((Step.row c input (stepsOf u)).result τ) := by
      by_cases hall : AllPass ((Step.row c input (stepsOf u)).result τ)
      · rw [(Step.row_append_of_pass _ hall).1] at hclear
        exact (List.forall_mem_append.mp hclear).1
      · rwa [(Step.row_append_of_fail _ hall).1] at hclear
    cases hact u input hinput σ τ hσ hinner with
    | passed hall hlength hr hafter =>
      -- what the part gives is no context, so the parts after it get the last data of the steps so far
      have hdata : ∀ p ∈ (total .empty input ((Step.row c input (stepsOf u)).result τ)).data, Clear p := by
        rw [total, Result.finish_data]
        exact of_mem_lastData hinput hinner
      have hhand : q.next (c, input) (total .empty input ((Step.row c input (stepsOf u)).result τ)) =
          (c, lastData input ((Step.row c input (stepsOf u)).result τ)) := by
        rw [hnext _ _ hdata, total, Result.finish_data, lastData_orElse]
      obtain ⟨hrow, hrowAfter⟩ := Step.row_append_of_pass (us.flatMap stepsOf) hall
      obtain ⟨hloop, hloopAfter⟩ := Sequence.loop_of_pass (q := q) i tally us
        (show ((q.act u (c, input)).result σ).isError = false by rw [hr]; exact isError_total)
      rw [hrow] at hclear ⊢
      rw [hrowAfter, hloop, hloopAfter, hr, Tally.add_total, hhand]
      refine Summed.append hall hlength ?_ (ih (i + 1) _ _ (of_mem_lastData hinput hinner) _ _ hafter
        (List.forall_mem_append.mp hclear).2)
      rintro n words place ⟨before, u', after, m, inside, rfl, rfl, hinside, rfl⟩
      refine ⟨u :: before, u', after, m, inside, rfl, ?_, hinside, ?_⟩
      · rw [List.flatMap_cons, List.length_append, Nat.add_assoc]
      · rw [List.length_cons, Nat.add_right_comm, Nat.add_assoc]
    | failed rs r words place hrs hall hfail hfaults hr hafter =>
      -- no step of the parts after it is run, and the place of the step gets one more part
      have hbroken : ¬AllPass ((Step.row c input (stepsOf u)).result τ) := by
        intro h
        rw [h r (hrs ▸ List.mem_append_right _ List.mem_cons_self)] at hfail
        cases hfail
      obtain ⟨hrow, hrowAfter⟩ := Step.row_append_of_fail (us.flatMap stepsOf) hbroken
      obtain ⟨hloop, hloopAfter⟩ := Sequence.loop_of_fail (q := q) i tally us
        (show ((q.act u (c, input)).result σ).isError = true by rw [hr]; rfl)
      rw [hrow, hrowAfter, hloop, hloopAfter, hr, failure_breakOff]
      refine .failed rs r words _ hrs hall hfail ⟨[], u, us, rs.length, place, rfl, ?_, hfaults, ?_⟩ rfl hafter.log
      · exact (Nat.zero_add _).symm
      · rw [List.length_nil, Nat.zero_add]

theorem Task.sumsUp_run (t : Task) (input : Option Payload) :
    SumsUp (t.run c input) c input t.steps (t.FaultsFrom 0 t.steps) .empty := by
  rw [run_eq]
  exact .run ⟨fun _ => ⟨rfl, rfl⟩, fun _ _ => ⟨rfl, rfl⟩⟩ (t.sumsUp_loop _ _ _ _)

theorem handOn_of_clear {r : Result Payload} (h : ∀ p ∈ r.data, Clear p) : handOn c input r = (c, r.data <|> input) := by
  cases hdata : r.data with
  | none =>
    rw [handOn, hdata]
    rfl
  | some p => exact handOn_clear hdata (h p hdata)

theorem Job.sumsUp_run (j : Job) (hinput : ∀ p ∈ input, Clear p) :
    SumsUp (j.run c input) c input j.steps
      (j.sequence.FaultsFrom Task.steps (fun t => t.FaultsFrom 0 t.steps) 0 j.tasks) .empty := by
  rw [run_eq]
  exact .run ⟨fun _ => ⟨rfl, rfl⟩, fun _ _ => ⟨rfl, rfl⟩⟩
    (Sequence.sumsUp_loop (fun t _ _ => t.sumsUp_run _) (fun _ _ => handOn_of_clear) _ _ _ hinput _)

end Sequences

/-! ### Pipelines -/

/-- Where the step with number `n` stands in the jobs of a pipeline. -/
structure Spot (jobs : List Job) (n : Nat) where
  (jobsBefore : List Job) (job : Job) (jobsAfter : List Job)
  (tasksBefore : List Task) (task : Task) (tasksAfter : List Task)
  (stepsBefore : List Step) (step : Step) (stepsAfter : List Step)
  jobs_eq : jobs = jobsBefore ++ job :: jobsAfter
  tasks_eq : job.tasks = tasksBefore ++ task :: tasksAfter
  steps_eq : task.steps = stepsBefore ++ step :: stepsAfter
  number : n = (jobsBefore.flatMap Job.steps).length + ((tasksBefore.flatMap Task.steps).length + stepsBefore.length)

namespace Spot

variable {jobs : List Job} {n : Nat} (spot : Spot jobs n)

/-- The words for a failure of the step that has none. -/
def words : String := "Task " ++ spot.task.name ++ " failed at step " ++ spot.step.name

/-- What the metadata says about the failure of the step in a pipeline with a name. -/
def place (name : String) : Metadata :=
  [("task", .text spot.task.name), ("failed_step", .text spot.step.name), ("step_index", .ofNat spot.stepsBefore.length),
    ("job", .text spot.job.name), ("failed_task", .text spot.task.name), ("task_index", .ofNat spot.tasksBefore.length),
    ("pipeline", .text name), ("failed_job", .text spot.job.name), ("job_index", .ofNat spot.jobsBefore.length)]

/-- The keys that say where a step failed. -/
def placeKeys : List String :=
  ["task", "failed_step", "step_index", "job", "failed_task", "task_index", "pipeline", "failed_job", "job_index"]

/-- Where a step failed is said under the keys for it, and under no other. -/
theorem get?_merge_place {name key : String} {m : Metadata} (hkey : key ∉ placeKeys) :
    (m.merge (spot.place name)).get? key = m.get? key := by
  have hkeys : (spot.place name).map (·.1) = placeKeys := rfl
  have hnone : Metadata.get? (spot.place name) key = none := by
    rw [Metadata.get?, List.lookup_eq_none_iff]
    rintro ⟨k, v⟩ hmem
    have : k ≠ key := by
      rintro rfl
      exact hkey (hkeys ▸ List.mem_map_of_mem hmem)
    simpa using this.symm
  rw [Metadata.get?_merge _ _ (by rw [hkeys]; decide), hnone]
  rfl

end Spot

/-- What a pipeline of some jobs gives when its steps come to these results. -/
inductive Collected (name : String) (jobs : List Job) (input : Option Payload) (rs : List (Result Payload))
    (r : Result Payload) : Prop
  | passed (all : AllPass rs) (length : rs.length = (jobs.flatMap Job.steps).length)
      (status : r.status = if warningsOf rs = [] then .success else .warning) (data : r.data = lastData input rs)
      (error : r.error = none) (warnings : r.warnings = warningsOf rs) (metadata : r.metadata = unionOf rs)
  | failed (before : List (Result Payload)) (last : Result Payload) (split : rs = before ++ [last]) (all : AllPass before)
      (fails : last.isError = true) (spot : Spot jobs before.length) (status : r.status = .error) (data : r.data = none)
      (error : r.error = some (last.error.getD (.mishap .state spot.words))) (warnings : r.warnings = [])
      (metadata : r.metadata = (unionOf rs).merge (spot.place name))

/-- Two results are the same but for the metadata under some keys, and for the words of a failure that was made up. -/
structure AgreeOff (keys : List String) (r r' : Result Payload) : Prop where
  status : r.status = r'.status
  data : r.data = r'.data
  error : r.error = r'.error ∨
    ∃ words words', r.error = some (.mishap .state words) ∧ r'.error = some (.mishap .state words')
  warnings : r.warnings = r'.warnings
  metadata : ∀ key, key ∉ keys → r.metadata.get? key = r'.metadata.get? key

/-- The step whose start an event is about, by name and type. -/
def Event.startedStep? : Event → Option (String × String)
  | .stepStarted _ name type => some (name, type)
  | _ => none

/-- The steps that have started. -/
def startedSteps (es : List Event) : List (String × String) := es.filterMap Event.startedStep?

section Pipelines

variable {c : Context} {input : Option Payload} {σ τ : Session} {rs : List (Result Payload)} {r r' : Result Payload}

theorem Session.Akin.started (h : σ.Akin τ) : startedSteps σ.events = startedSteps τ.events := by
  have hfilter : ∀ es : List Event, startedSteps (es.filter Event.isOfStep) = startedSteps es := by
    intro es
    rw [startedSteps, startedSteps, List.filterMap_filter]
    refine List.filterMap_congr fun e _ => ?_
    cases e <;> rfl
  rw [← hfilter, h.steps, hfilter]

/-- Of the steps of a row those start that have a result. -/
theorem Step.row_started (ss : List Step) :
    startedSteps ((row c input ss).after σ).events =
      startedSteps σ.events ++ (ss.take ((row c input ss).result σ).length).map fun s => (s.name, s.type) := by
  induction ss generalizing input σ with
  | nil => exact (List.append_nil _).symm
  | cons s ss ih =>
    have hstep : startedSteps ((s.run c input).after σ).events = startedSteps σ.events ++ [(s.name, s.type)] := by
      obtain ⟨ns, hevents⟩ := s.after_run_events c input σ
      have hsilent : startedSteps (ns.map (Event.notice c)) = [] := by
        rw [startedSteps, List.filterMap_map]
        exact List.filterMap_eq_nil_iff.mpr fun _ _ => rfl
      have hstart : startedSteps (Event.stepStarted c s.name s.type :: ns.map (Event.notice c)) = [(s.name, s.type)] :=
        congrArg (List.cons _) hsilent
      rw [hevents, startedSteps, List.filterMap_append, List.filterMap_append]
      show startedSteps σ.events ++ startedSteps (_ :: _) ++ [] = _
      rw [hstart, List.append_nil]
    cases herror : ((s.run c input).result σ).isError with
    | true =>
      obtain ⟨hrow, hafter⟩ := row_of_fail ss herror
      rw [hrow, hafter, hstep]
      rfl
    | false =>
      obtain ⟨hrow, hafter⟩ := row_of_pass ss herror
      rw [hrow, hafter, ih, hstep, List.append_assoc]
      rfl

theorem Summed.collected {name : String} {jobs : List Job}
    (h : Summed .empty input (jobs.flatMap Job.steps) ((Pipeline.sequence name).FaultsFrom Job.steps
      (fun j => j.sequence.FaultsFrom Task.steps (fun t => t.FaultsFrom 0 t.steps) 0 j.tasks) 0 jobs) rs r σ τ) :
    Collected name jobs input rs r ∧ σ.Akin τ := by
  cases h with
  | passed hall hlength hr hσ =>
    rw [total, Tally.after_empty] at hr
    refine ⟨.passed hall hlength ?_ ?_ ?_ ?_ ?_, hσ.akin⟩
    all_goals rw [hr]
    · unfold Result.finish
      split
      · rename_i hnone
        rw [if_pos (List.isEmpty_iff.mp hnone)]
        rfl
      · rename_i hsome
        rw [if_neg fun h => hsome (List.isEmpty_iff.mpr h)]
        rfl
    · exact Result.finish_data _ _ _
    · unfold Result.finish
      split <;> rfl
    · exact Result.finish_warnings _ _ _
    · exact Result.finish_metadata _ _ _
  | failed rs' r' words place hrs hall hfail hfaults hr hσ =>
    -- the failing step is found in its task, the task in its job, the job in the pipeline
    obtain ⟨jobsBefore, job, jobsAfter, m, inJob, hjobs, hn, hfaults, rfl⟩ := hfaults
    obtain ⟨tasksBefore, task, tasksAfter, m', inTask, htasks, rfl, hfaults, rfl⟩ := hfaults
    obtain ⟨stepsBefore, step, stepsAfter, hsteps, rfl, rfl, rfl⟩ := hfaults
    let spot : Spot jobs rs'.length := ⟨jobsBefore, job, jobsAfter, tasksBefore, task, tasksAfter, stepsBefore, step,
      stepsAfter, hjobs, htasks, hsteps, hn⟩
    have hr' : r = .failure (r'.error.getD (.mishap .state spot.words)) ((unionOf rs).merge (spot.place name)) := by
      rw [hr, breakOff, Tally.after_empty, ← hrs]
      rfl
    refine ⟨.failed rs' r' hrs hall hfail spot ?_ ?_ ?_ ?_ ?_, hσ⟩
    all_goals rw [hr']
    · rfl
    · rfl
    · rfl
    · rfl
    · exact Result.failure_metadata _ _

theorem Collected.agree {name name' : String} {jobs jobs' : List Job}
    (h : Collected name jobs input rs r) (h' : Collected name' jobs' input rs r') : AgreeOff Spot.placeKeys r r' := by
  -- the results are those of one row, so they pass for both groupings or fail for both
  have hmixed : ∀ {before : List (Result Payload)} {last : Result Payload}, rs = before ++ [last] → AllPass rs →
      last.isError = true → False := by
    rintro before last rfl hall hfail
    rw [hall last (List.mem_append_right _ List.mem_cons_self)] at hfail
    cases hfail
  cases h with
  | passed all length status data error warnings metadata =>
    cases h' with
    | passed _ _ status' data' error' warnings' metadata' =>
      exact ⟨status.trans status'.symm, data.trans data'.symm, .inl (error.trans error'.symm),
        warnings.trans warnings'.symm, fun key _ => by rw [metadata, metadata']⟩
    | failed before last split _ fails => exact (hmixed split all fails).elim
  | failed before last split all fails spot status data error warnings metadata =>
    cases h' with
    | passed all' => exact (hmixed split all' fails).elim
    | failed before' last' split' all' _ spot' status' data' error' warnings' metadata' =>
      obtain ⟨rfl, hlast⟩ := List.append_inj' (split.symm.trans split') rfl
      obtain rfl : last = last' := List.singleton_inj.mp hlast
      refine ⟨status.trans status'.symm, data.trans data'.symm, ?_, warnings.trans warnings'.symm, fun key hkey => ?_⟩
      · rw [error, error']
        cases last.error with
        | none => exact .inr ⟨_, _, rfl, rfl⟩
        | some f => exact .inl rfl
      · rw [metadata, metadata', spot.get?_merge_place hkey, spot'.get?_merge_place hkey]

/-- The steps of the jobs of a pipeline without a grouping, once the pipeline has said that it starts. -/
def Pipeline.ungrouped (jobs : List Job) (c : Context) (input : Option Payload) : Act (List (Result Payload)) := do
  Act.publish (.pipelineStarted c)
  Step.row c input (jobs.flatMap Job.steps)

/-- A pipeline gives what its steps come to without a grouping. -/
theorem Pipeline.collected_run (name : String) (jobs : List Job) (hinput : ∀ p ∈ input, Clear p)
    (hclear : AllClear ((ungrouped jobs c input).result σ)) :
    Collected name jobs input ((ungrouped jobs c input).result σ) (((ofJobs name jobs).run c input).result σ) ∧
      (((ofJobs name jobs).run c input).after σ).Akin ((ungrouped jobs c input).after σ) := by
  obtain ⟨hcollected, hakin⟩ := (Sequence.sumsUp_loop (q := sequence name) (fun j _ hinput => j.sumsUp_run hinput)
    (fun _ _ => handOn_of_clear) 0 .empty input hinput jobs _ _ (.refl _) hclear).collected
  rw [run_eq]
  exact ⟨hcollected, hakin.publish rfl⟩

/-- The steps of a pipeline are run as they are without a grouping: those up to the first that fails, on the same disk and
with the same data.  The pipeline gives the last data, all warnings and the union of all metadata, or the failure of the
step that failed, with the metadata so far and the place of the step.  So two pipelines of the same steps agree but for
the place: for what is said under its keys, and for the words of a failure that the task makes up for a step that has
none. -/
theorem Pipeline.run_grouped (name : String) (jobs : List Job) (c : Context) (input : Option Payload) (σ : Session)
    (hinput : ∀ p ∈ input, Clear p) (hclear : AllClear ((ungrouped jobs c input).result σ)) :
    let p := ofJobs name jobs
    let rs := (ungrouped jobs c input).result σ
    Collected name jobs input rs ((p.run c input).result σ) ∧
    startedSteps ((p.run c input).after σ).events =
      startedSteps σ.events ++ ((jobs.flatMap Job.steps).take rs.length).map (fun s => (s.name, s.type)) ∧
    ∀ name' jobs', jobs'.flatMap Job.steps = jobs.flatMap Job.steps →
      AgreeOff Spot.placeKeys ((p.run c input).result σ) (((ofJobs name' jobs').run c input).result σ) ∧
      ((p.run c input).after σ).Akin (((ofJobs name' jobs').run c input).after σ) := by
  intro p rs
  obtain ⟨hcollected, hakin⟩ := collected_run name jobs hinput hclear
  refine ⟨hcollected, ?_, fun name' jobs' hsteps => ?_⟩
  · rw [hakin.started]
    refine (Step.row_started _).trans (congrArg (· ++ _) ?_)
    show startedSteps (σ.events ++ [_]) = _
    rw [startedSteps, List.filterMap_append]
    exact List.append_nil _
  · have hsame : ungrouped jobs' c input = ungrouped jobs c input := by rw [ungrouped, ungrouped, hsteps]
    obtain ⟨hcollected', hakin'⟩ := collected_run name' jobs' hinput (hsame ▸ hclear)
    rw [hsame] at hcollected' hakin'
    exact ⟨hcollected.agree hcollected', hakin.trans hakin'.symm⟩

end Pipelines

/-- A step that adds a number, and one that fails without saying why. -/
def addAndStop : List Step :=
  [(Script.add (.int 1)).step "add" "AddStep" [("seen", .int 1)],
    Script.failEmpty.step "stop" "StopStep" [("seen", .int 2)]]

/-- The two steps in one task. -/
def addAndStopTogether : List Job := [⟨"sum", "Job", [⟨"sum", addAndStop⟩]⟩]

/-- Each of the two steps in a job of its own. -/
def addAndStopApart : List Job := addAndStop.map fun s => ⟨s.name, "Job", [⟨s.name, [s]⟩]⟩

/-- A run on a disk on which nothing lies. -/
def emptyRun : Context × Session := (⟨"t.py", "t.py", .standard, "run", []⟩, ⟨.start .calm .empty, [], true⟩)

theorem Pipeline.grouped_addAndStop :
    (∀ p ∈ some (Payload.plain (.int 1)), Clear p) ∧
    AllClear ((ungrouped addAndStopTogether emptyRun.1 (some (.plain (.int 1)))).result emptyRun.2) ∧
    AgreeOff Spot.placeKeys
      (((ofJobs "sums" addAndStopTogether).run emptyRun.1 (some (.plain (.int 1)))).result emptyRun.2)
      (((ofJobs "sums" addAndStopApart).run emptyRun.1 (some (.plain (.int 1)))).result emptyRun.2) := by
  have hinput : ∀ p ∈ some (Payload.plain (.int 1)), Clear p := by
    intro p hp c hc
    rw [hc] at hp
    cases hp
  have hresults : (ungrouped addAndStopTogether emptyRun.1 (some (.plain (.int 1)))).result emptyRun.2 =
      [.success (.plain (.int 2)) [("seen", .int 1)], .failure? none [("seen", .int 2)]] := rfl
  have hclear : AllClear ((ungrouped addAndStopTogether emptyRun.1 (some (.plain (.int 1)))).result emptyRun.2) := by
    rw [hresults]
    rintro r (_ | ⟨_, _ | ⟨_, ⟨⟩⟩⟩) p hp c hc
    all_goals
      rw [hc] at hp
      cases hp
  obtain ⟨-, -, hgroupings⟩ := run_grouped "sums" addAndStopTogether _ _ emptyRun.2 hinput hclear
  exact ⟨hinput, hclear, (hgroupings "sums" addAndStopApart rfl).1⟩

end FluentShift.Engine
