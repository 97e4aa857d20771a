import FluentShift.Proofs.Migration.Steps

/-!
# FluentShift.Proofs.Migration.File - what migrating one file does

Migrating a file ends without anything done, or as the output job ends on the text of the file (`runs_fileEnd`).  So it
writes the copy of the source and the target and nothing else (`FileEnd.writes`), and the disk stays as it was up to a copy
when the file could not be migrated.
-/

namespace FluentShift.Migration

open FluentShift.Files FluentShift.Engine FluentShift.Types

/-! ### Attempts -/

section Attempts

variable {system : System} {d : Disk}

theorem runs_attempt_bind {α β : Type} {a : Attempt β} {f : β → Attempt α} {Q : Except Failure α → Disk → Prop}
    (h : Act.Runs system a.run d fun e d' =>
      match e with
      | .ok b => Act.Runs system (f b).run d' Q
      | .error m => Q (.error m) d') : Act.Runs system (a >>= f).run d Q := by
  rw [ExceptT.run_bind]
  refine Act.runs_bind (h.mono fun e d' he => ?_)
  cases e with
  | ok b => exact he
  | error m => exact Act.runs_pure he

theorem runs_attempt_ofExcept {α : Type} {e : Except Failure α} {Q : Except Failure α → Disk → Prop}
    (h : Q e d) : Act.Runs system (Attempt.ofExcept e).run d Q := by
  cases e with
  | ok a => exact Act.runs_pure h
  | error m => exact Act.runs_pure h

theorem runs_attempt_lift {α : Type} {a : Act α} {Q : Except Failure α → Disk → Prop}
    (h : a.Runs system d fun x d' => Q (.ok x) d') : Act.Runs system (ExceptT.run (liftM a : Attempt α)) d Q :=
  Act.runs_map h

theorem runs_attempt_session {α : Type} {f : Session → Attempt α} {Q : Except Failure α → Disk → Prop}
    (h : ∀ s : Session, s.desk.disk = d → Act.Runs system (f s).run d Q) :
    Act.Runs system (getThe Session >>= f : Attempt α).run d Q :=
  fun s hs => h s hs s hs

end Attempts

/-! ### One file -/

/-- How migrating a file ends: with nothing done, or as the output job ended for its text. -/
inductive FileEnd (tools : Tools) (c : Config) (source : String) (d : Disk) :
    Except Failure (Result Payload) → Disk → Prop
  | stopped {answer : Except Failure (Result Payload)} (h : ∀ r, answer = .ok r → r.isOk = false ∧ r.data = none) :
      FileEnd tools c source d answer d
  | ended {bytes : ByteArray} {code new : String} {t : FilePath} {r : Result Payload} {fate : Fate} {d' : Disk}
      (content : d.content? (FilePath.ofString source).text = some bytes) (decoded : Text.Utf8.decode bytes = .ok code)
      (target : c.targetPath source = .ok t) (text : newText tools d c code = .ok new)
      (ended : Ended c (FilePath.ofString source).text t code new d fate d') (told : Says t new r fate) :
      FileEnd tools c source d (.ok r) d'

section File

variable {tools : Tools} {c : Config} {runId source : String} {system : System} {d d' : Disk} {t : FilePath}
  {code new : String}

theorem isOk_of_isError {α : Type} {r : Result α} (h : r.isError = true) : r.isOk = false := by
  rw [Result.isError, decide_eq_true_eq] at h
  rw [Result.isOk, h]
  rfl

theorem data_of_isError {α : Type} {r : Result α} (h : r.isError = true) : r.data = none :=
  Option.isNone_iff_eq_none.mp (r.dataless (of_decide_eq_true h))

theorem isNormal_targetPath (h : c.targetPath source = .ok t) : t.IsNormal := by
  rw [Config.targetPath] at h
  split at h
  · split at h
    · rw [← Except.ok.inj h]
      exact (FilePath.isNormal_ofString _).join (FilePath.isNormal_ofString _)
    · cases h
  · rw [← Except.ok.inj h]
    exact (FilePath.isNormal_ofString _).parent.join (FilePath.isNormal_ofString _)

theorem targetPath_text : c.targetPath (FilePath.ofString source).text = c.targetPath source := by
  unfold Config.targetPath
  simp only [FilePath.ofString_text_ofString]

/-- The pipeline stops before the output job, or ends as that ends. -/
theorem runs_pipeline {context : Context} (h : context.metadata.get? originalKey = some (.text code)) (ht : t.IsNormal)
    (htarget : context.target = t.text) :
    ((pipeline tools).run context (some (textPayload code))).Runs system d fun r d' => r.isError = true ∧ d' = d ∨
      ∃ new fate, newText tools d context.config code = .ok new ∧
        Ended context.config context.source t code new d fate d' ∧ Says t new r fate := by
  refine Act.runs_publish_bind (Pipeline.runs_stage_still _ still_collect (fun p hp => ?_) (fun r hr => .inl ⟨hr, rfl⟩)
    fun _ _ p hp => ?_)
  · -- the first stages leave the disk alone, so the output job begins on the disk of the start
    obtain ⟨new, -, rfl⟩ := hp
    exact clear_text _
  · obtain ⟨draft, hdraft, rfl⟩ := hp
    have hformat : ∀ d' ∈ ({d} : Set Disk), FormatsAlike tools.formatter context.config d' d := fun d' hd' _ => hd' ▸ rfl
    refine Pipeline.runs_stage_still _ (still_format hformat) (fun p hp => ?_) (fun r hr => .inl ⟨hr, rfl⟩)
      fun _ _ p hp => ?_
    · obtain ⟨new, -, rfl⟩ := hp
      exact clear_text _
    obtain ⟨new, hformatted, rfl⟩ := hp
    have hnew : newText tools d context.config code = .ok new := Except.bind_eq_ok.mpr ⟨draft, hdraft, hformatted⟩
    refine Pipeline.runs_last_stage _ ((runs_output h ht htarget).mono fun r d' hr => ?_)
    obtain ⟨fate, hended, htold, hnodup⟩ := hr
    -- only the output job can still fail; what it gives goes through the summaries of three levels unchanged
    cases fate with
    | failed => exact .inl ⟨fun r hr => .inr ⟨new, .failed, hnew, hended, hr⟩, htold⟩
    | planned | same | written =>
      obtain ⟨hok, hdata, hget⟩ := htold
      have herror : r.isError = false := by
        by_contra herror
        rw [Bool.not_eq_false] at herror
        rw [isOk_of_isError herror] at hok
        cases hok
      refine .inr ⟨_, clear_text _, hdata, herror, fun ws m => .inr ⟨new, _, hnew, hended, ?_⟩⟩
      refine ⟨Result.isOk_finish _ _ _, Result.finish_data _ _ _, ?_⟩
      rw [Result.finish_metadata, Metadata.get?_merge _ _ (hnodup herror), hget]
      rfl

theorem still_logOutcome {ds : Set Disk} (r : Result Payload) : (logOutcome source r).Still ds fun _ => True := by
  unfold logOutcome
  split <;> exact Act.still_log _ _

theorem runs_migrateText {bytes : ByteArray} (hcontent : d.content? (FilePath.ofString source).text = some bytes)
    (hcode : Text.Utf8.decode bytes = .ok code) :
    Act.Runs system (migrateText tools c runId source (FilePath.ofString source) code).run d (FileEnd tools c source d) := by
  refine runs_attempt_bind (runs_attempt_ofExcept ?_)
  cases htarget : c.targetPath source with
  | error m =>
    rw [Context.create, targetPath_text, htarget]
    exact .stopped fun r hr => by cases hr
  | ok t =>
    rw [Context.create, targetPath_text, htarget]
    have ht := isNormal_targetPath htarget
    have hnote : Metadata.get? (Metadata.put [] originalKey (.text code)) originalKey = some (.text code) := rfl
    refine runs_attempt_bind (runs_attempt_lift ((runs_pipeline hnote ht rfl).mono fun r d₁ h => ?_))
    refine runs_attempt_bind (runs_attempt_lift (((still_logOutcome r).runs (Set.mem_univ _)).mono fun _ d₂ hlog => ?_))
    obtain ⟨-, rfl⟩ := hlog
    refine Act.runs_pure ?_
    rcases h with ⟨herror, rfl⟩ | ⟨new, fate, hnew, hended, htold⟩
    · exact .stopped fun r hr => Except.ok.inj hr ▸ ⟨isOk_of_isError herror, data_of_isError herror⟩
    · exact .ended hcontent hcode htarget hnew hended htold

theorem eq_of_validateSource {path : FilePath} (h : validateSource d source = .ok path) :
    path = FilePath.ofString source := by
  rw [validateSource] at h
  split at h
  · cases h
  · obtain ⟨found, -, h⟩ := Except.bind_eq_ok.mp h
    split at h
    · cases h
    · cases h
    · exact (Except.ok.inj h).symm

/-- Migrating a file. -/
theorem runs_fileEnd : Act.Runs system (migrateFile tools c runId source).run d (FileEnd tools c source d) := by
  have hstopped : ∀ {r : Result Payload}, r.isOk = false ∧ r.data = none → FileEnd tools c source d (.ok r) d :=
    fun h => .stopped fun r hr => Except.ok.inj hr ▸ h
  refine runs_attempt_session fun session _ => ?_
  dsimp only
  split
  · exact Act.runs_pure (hstopped ⟨rfl, rfl⟩)
  · exact Act.runs_pure (.stopped fun r hr => by cases hr)
  · rename_i path hpath
    obtain rfl := eq_of_validateSource hpath
    refine runs_attempt_bind (runs_attempt_ofExcept ?_)
    split
    · split
      · exact Act.runs_pure (hstopped ⟨rfl, rfl⟩)
      · refine runs_attempt_bind (runs_attempt_lift (Act.runs_work (runs_readSource.mono fun e d₁ h => ?_)))
        obtain ⟨rfl, hread⟩ := h
        cases e with
        | error f => exact runs_attempt_bind (runs_attempt_lift (Act.runs_log (Act.runs_pure (hstopped ⟨rfl, rfl⟩))))
        | ok code =>
          obtain ⟨bytes, hcontent, hcode⟩ := readText_ok (hread code rfl)
          exact runs_migrateText hcontent hcode
    · exact .stopped fun r hr => by cases hr

end File

/-! ### What is written for a file -/

/-- The path for the target of a source, if there is one. -/
def targetsOf (c : Config) (s : String) : List FilePath := (c.targetPath s).toOption.toList

/-- The paths that are written for a source. -/
def outputs (c : Config) (s : String) : List FilePath := copies (c.textOf? .backupRoot) s ++ targetsOf c s

theorem mem_targetsOf {c : Config} {s : String} {t : FilePath} : t ∈ targetsOf c s ↔ c.targetPath s = .ok t := by
  unfold targetsOf
  cases c.targetPath s with
  | ok q => simp [Except.toOption, eq_comm]
  | error f => simp [Except.toOption]

@[simp] theorem copies_text (root : Option String) (s : String) : copies root (FilePath.ofString s).text = copies root s := by
  unfold copies backupPath
  simp only [FilePath.ofString_text_ofString]

@[simp] theorem targetsOf_text (c : Config) (s : String) : targetsOf c (FilePath.ofString s).text = targetsOf c s := by
  rw [targetsOf, targetPath_text, targetsOf]

@[simp] theorem named_text_ofString (s : String) : Place.named (FilePath.ofString s).text = Place.named s :=
  Place.named_text (FilePath.isNormal_ofString s)

/-- From one disk to another files are written at the given paths, and directories made on the way to them. -/
def Writes (ps : List FilePath) (d d' : Disk) : Prop :=
  Disk.Grows (ps.map Place.ofPath) (ps.flatMap fun p => p.parent.reach) d d'

namespace Writes

variable {ps qs : List FilePath} {d d' d'' : Disk}

theorem refl (ps : List FilePath) (d : Disk) : Writes ps d d := Disk.Grows.refl _ _ _

theorem mono (h : Writes ps d d') (hsub : ps ⊆ qs) : Writes qs d d' := by
  refine Disk.Grows.mono h (List.map_subset _ hsub) fun q hq => ?_
  obtain ⟨p, hp, hq⟩ := List.mem_flatMap.mp hq
  exact List.mem_flatMap.mpr ⟨p, hsub hp, hq⟩

theorem trans (h : Writes ps d d') (h' : Writes qs d' d'') : Writes (ps ++ qs) d d'' :=
  Disk.Grows.trans (h.mono (List.subset_append_left ps qs)) (h'.mono (List.subset_append_right ps qs))

/-- What is written to one path, or not written at last. -/
theorem of_grows {p : FilePath} {ws : List Place} (h : Disk.Grows ws p.parent.reach d d') (hws : ws ⊆ [Place.ofPath p]) :
    Writes [p] d d' :=
  Disk.Grows.mono h hws (by simp)

end Writes

section Ends

variable {tools : Tools} {c : Config} {source code new : String} {t : FilePath} {fate : Fate} {d d' : Disk}
  {answer : Except Failure (Option FilePath)}

theorem Copying.writes (h : Copying c source code new d answer d') : Writes (copies (c.textOf? .backupRoot) source) d d' := by
  cases h with
  | unneeded => exact Writes.refl _ _
  | nowhere => exact Writes.refl _ _
  | kept _ hp hkept =>
    have hmem : [_] ⊆ copies (c.textOf? .backupRoot) source := fun q hq => by
      rw [List.mem_singleton.mp hq]
      exact mem_copies.mpr hp
    cases answer with
    | error f => exact (Writes.of_grows hkept (List.nil_subset _)).mono hmem
    | ok x =>
      cases x with
      | none => exact hkept.1 ▸ Writes.refl _ _
      | some q => exact (Writes.of_grows hkept.2.2.1 (List.Subset.refl _)).mono hmem

theorem Ended.writes (h : Ended c source t code new d fate d') :
    Writes (copies (c.textOf? .backupRoot) source ++ [t]) d d' := by
  cases h with
  | planned => exact Writes.refl _ _
  | uncopied _ hcopy => exact hcopy.writes.mono (List.subset_append_left _ _)
  | refused _ hcopy hmade => exact hcopy.writes.trans (Writes.of_grows hmade (List.nil_subset _))
  | same => exact Writes.refl _ _
  | written _ hcopy _ hgrows _ => exact hcopy.writes.trans (Writes.of_grows hgrows (List.Subset.refl _))

/-- Migrating a file writes its outputs and nothing else. -/
theorem FileEnd.writes {answer : Except Failure (Result Payload)} (h : FileEnd tools c source d answer d') :
    Writes (outputs c source) d d' := by
  cases h with
  | stopped => exact Writes.refl _ _
  | ended _ _ htarget _ hended _ =>
    have hwrites := hended.writes
    rw [copies_text] at hwrites
    refine hwrites.mono fun p hp => ?_
    rcases List.mem_append.mp hp with hp | hp
    · exact List.mem_append_left _ hp
    · rw [List.mem_singleton.mp hp]
      exact List.mem_append_right _ (mem_targetsOf.mpr htarget)

end Ends

/-! ### Lists of sources -/

theorem nodup_eraseDups (ss : List String) : ss.eraseDups.Nodup := by
  induction hlen : ss.length using Nat.strong_induction_on generalizing ss with
  | _ n ih =>
    cases ss with
    | nil => simp
    | cons s ss =>
      rw [List.eraseDups_cons, List.nodup_cons, List.mem_eraseDups]
      refine ⟨by simp, ih _ ?_ _ rfl⟩
      rw [← hlen]
      exact Nat.lt_succ_of_le (List.length_filter_le _ _)

/-! ### A run on a small disk -/

/-- What a result says about whether its target was written. -/
def writtenNote (r : Result Payload) : Option Bool :=
  match r.metadata.get? "written" with
  | some (.bool b) => some b
  | _ => none

/-- Whether a source is migrated, whether its target is written, and what lies on the disk then. -/
def fileRun (c : Config) (d : Disk) (source : String) : Option (Bool × Option Bool × List (Place × Entry)) :=
  let r := Act.outcome (migrateFile .standard c "run" source).run d false
  r.1.toOption.map fun x => (x.isOk, writtenNote x, r.2.desk.disk.entries)

theorem of_fileRun {c : Config} {d : Disk} {source : String} {isOk : Bool} {written : Option Bool}
    {es : List (Place × Entry)} (h : fileRun c d source = some (isOk, written, es)) :
    ∃ r s, Act.outcome (migrateFile .standard c "run" source).run d false = (.ok r, s) ∧ r.isOk = isOk ∧
      writtenNote r = written ∧ s.desk.disk = ⟨es⟩ := by
  obtain ⟨r, hr, heq⟩ := Option.map_eq_some_iff.mp h
  cases heq
  exact ⟨r, _, Prod.ext (Except.eq_ok_of_toOption hr) rfl, rfl, rfl, rfl⟩

/-- A text that changes without a call in it: the mark it starts with is not written again. -/
def markedText : String := "\ufeffx = 1\n"

/-- A disk with one source, which holds that text. -/
def markedDisk : Disk := ⟨[(["t.py"], .file markedText.toUTF8)]⟩

end FluentShift.Migration
