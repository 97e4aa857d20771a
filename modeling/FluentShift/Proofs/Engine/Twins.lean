import FluentShift.Proofs.Files.Twins
import FluentShift.Proofs.Engine.Unit

/-!
# FluentShift.Proofs.Engine.Twins - the same units on two disks

A unit comes to the same result on two disks on which the paths that it uses see the same, if its steps do.  Events and
lines of the log may differ, nothing is read from them.
-/

namespace FluentShift.Engine

open FluentShift.Files

variable {α β : Type} {a : Answers} {ps : List FilePath}

/-! ### Acts -/

namespace Act

/-- An act that comes to the same in two sessions on whose disks the paths see the same. -/
abbrev Twin (a : Answers) (ps : List FilePath) (act : Act α) : Prop := Files.Twin Session.desk a ps act

theorem twin_publish (e : Event) : Twin a ps (publish e) :=
  fun _ _ hfair h => ⟨_, _, _, rfl, rfl, ⟨hfair.left, hfair.right⟩, Both.refl h⟩

theorem twin_log (level : Level) (text : String) : Twin a ps (log level text) :=
  fun _ _ hfair h => ⟨_, _, _, rfl, rfl, ⟨hfair.left, hfair.right⟩, Both.refl h⟩

theorem twin_work {w : Work α} (h : w.Twin a ps) : Twin a ps (work w) := by
  intro s s' hfair hs
  obtain ⟨answer, k, k', hrun, hrun', hfair', hboth⟩ := h s.desk s'.desk hfair hs
  have hwork : ∀ s : Session, StateT.run (work w) s =
      ((StateT.run (ExceptT.run w) s.desk).1, { s with desk := (StateT.run (ExceptT.run w) s.desk).2 }) := fun _ => rfl
  rw [hwork, hwork, hrun, hrun']
  exact ⟨answer, _, _, rfl, rfl, hfair', hboth⟩

theorem twin_publishAll (c : Context) (ns : List Notice) : Twin a ps (ns.forM fun n => publish (.notice c n)) := by
  induction ns with
  | nil => exact twin_pure _
  | cons n ns ih => exact (twin_publish _).bind fun _ => ih

/-- What follows an act that leaves every disk alone. -/
theorem Still.bind_twin {P : α → Prop} {act : Act α} {f : α → Act β} (h : Still Set.univ P act)
    (hf : ∀ x, P x → Twin a ps (f x)) : Twin a ps (act >>= f) := by
  obtain ⟨x, hx, hact⟩ := h
  intro s s' hfair hs
  have hend : ∀ s : Session, ∃ t, StateT.run act s = (x, t) ∧ t.desk.disk = s.desk.disk ∧
      t.desk.system = s.desk.system := by
    intro s
    obtain ⟨⟨hanswer, hdisk⟩, hsystem⟩ := hact s.desk.system s.desk.disk trivial s rfl rfl
    exact ⟨_, Prod.ext hanswer rfl, hdisk, hsystem⟩
  obtain ⟨t, hrun, hdisk, hsystem⟩ := hend s
  obtain ⟨t', hrun', hdisk', hsystem'⟩ := hend s'
  rw [← hdisk, ← hdisk'] at hs ⊢
  rw [StateT.run_bind, StateT.run_bind, hrun, hrun']
  exact hf x hx t t' ⟨hsystem.trans hfair.left, hsystem'.trans hfair.right⟩ hs

end Act

/-! ### Units -/

variable {c : Context} {input : Option Payload} {P : Payload → Prop}

theorem Step.twin_run {s : Step} (h : (s.execute c input).Twin a ps) : (s.run c input).Twin a ps := by
  refine (Act.twin_publish _).bind fun _ => (Act.twin_work h).bind fun answer => ?_
  have hend : ∀ r : Result Payload,
      Act.Twin a ps (do let r ← pure r; Act.publish (.stepCompleted c s.name s.type r.status); pure r) :=
    fun r => (twin_pure r).bind fun r => (Act.twin_publish _).bind fun _ => twin_pure _
  cases answer with
  | ok report => exact (Act.twin_publishAll _ _).bind fun _ => hend _
  | error m => exact (Act.twin_log _ _).bind fun _ => hend _

theorem Task.twin_run {t : Task} (h : ∀ s ∈ t.steps, ∀ input, (s.execute c input).Twin a ps) : (t.run c input).Twin a ps := by
  have hsteps : ∀ ss, (∀ s ∈ ss, ∀ input, (s.execute c input).Twin a ps) → ∀ i tally input,
      (t.runSteps c i tally input ss).Twin a ps := by
    intro ss
    induction ss with
    | nil => exact fun _ _ _ _ => twin_pure _
    | cons s ss ih =>
      intro h i tally input
      rw [runSteps]
      refine (Step.twin_run (h s List.mem_cons_self _)).bind fun r => ?_
      split
      · exact (Act.twin_log _ _).bind fun _ => twin_pure _
      · exact ih (fun s hs => h s (List.mem_cons_of_mem _ hs)) _ _ _
  exact (Act.twin_publish _).bind fun _ => (hsteps t.steps h _ _ _).bind fun r =>
    (Act.twin_publish _).bind fun _ => twin_pure _

/-- A job of one task. -/
theorem Job.twin_run {name type : String} {t : Task} (h : (t.run c input).Twin a ps) :
    (Job.run ⟨name, type, [t]⟩ c input).Twin a ps := by
  refine (Act.twin_publish _).bind fun _ => h.bind fun r => ?_
  split
  · exact (Act.twin_log _ _).bind fun _ => (Act.twin_publish _).bind fun _ => twin_pure _
  · exact (Act.twin_publish _).bind fun _ => twin_pure _

/-- The jobs after one that leaves every disk alone. -/
theorem Pipeline.twin_stage_still (p : Pipeline) {start : Context} {i : Nat} {tally : Tally} {s : Stage}
    {ss : List Stage} (hs : (s.run c input).Still Set.univ (Gives P)) (hclear : ∀ x, P x → Clear x)
    (hrest : ∀ i tally x, P x → (p.runStages start i tally c (some x) ss).Twin a ps) :
    (p.runStages start i tally c input (s :: ss)).Twin a ps := by
  rw [runStages]
  refine hs.bind_twin fun r hr => ?_
  split
  · exact (Act.twin_log _ _).bind fun _ => (Act.twin_publish _).bind fun _ => twin_pure _
  · rename_i hok
    obtain ⟨x, hdata, hx⟩ := hr (Bool.eq_false_iff.mpr hok)
    rw [handOn_clear hdata (hclear x hx)]
    exact hrest _ _ x hx

theorem Pipeline.twin_last_stage (p : Pipeline) {start : Context} {i : Nat} {tally : Tally} {s : Stage}
    (hs : (s.run c input).Twin a ps) : (p.runStages start i tally c input [s]).Twin a ps := by
  rw [runStages]
  refine hs.bind fun r => ?_
  split
  · exact (Act.twin_log _ _).bind fun _ => (Act.twin_publish _).bind fun _ => twin_pure _
  · exact (Act.twin_publish _).bind fun _ => twin_pure _

end FluentShift.Engine
