import FluentShift.Migration.Batch
import FluentShift.Proofs.Engine.Unit
import FluentShift.Proofs.Rewrite.Accounting

/-!
# FluentShift.Proofs.Migration.Steps - what the steps of a migration give and do to the disk

Collecting and formatting leave the disk alone and give the new text of a source (`still_collect`, `still_format`); only
formatting may look at it.  Only the output job touches the disk, and `Ended` says how it may end: nothing is done, the
copy or the target is refused, or the target is written after the copy.
-/

namespace FluentShift.Migration

open FluentShift.Files FluentShift.Engine FluentShift.Rewrite FluentShift.Types

/-! ### Steps that leave the disk alone -/

/-- What rewriting makes of a text under a configuration. -/
def rewrittenText (oracle : Oracle) (c : Config) (code : String) : Except Failure String := do
  let s ← setupOf c oracle
  let f ← (readSource code "<string>").value
  return (← (rewrite s f).value).file.code

/-- What formatting makes of a text under a configuration, with what lies on a disk. -/
def formattedText (formatter : Formatter) (d : Disk) (c : Config) (code : String) : Except Failure String :=
  if c.isOn .format then layoutOf c >>= fun l => (formatter.run d l code).text code else .ok code

/-- What a text becomes under a configuration: it is rewritten, and then formatted with what lies on a disk. -/
def newText (tools : Tools) (d : Disk) (c : Config) (code : String) : Except Failure String :=
  rewrittenText tools.oracle c code >>= formattedText tools.formatter d c

/-- Two disks are the same to a formatter, or nothing is formatted. -/
def FormatsAlike (formatter : Formatter) (c : Config) (d d' : Disk) : Prop :=
  c.isOn .format = true → formatter.sortImports d = formatter.sortImports d'

theorem FormatsAlike.run {formatter : Formatter} {c : Config} {d d' : Disk} (h : FormatsAlike formatter c d d')
    (hformat : c.isOn .format = true) : formatter.run d = formatter.run d' := by
  funext l code
  rw [Formatter.run, h hformat, Formatter.run]

/-- Disks that are the same to a formatter, or text that is not formatted. -/
theorem newText_congr {tools : Tools} {c : Config} {d d' : Disk} (h : FormatsAlike tools.formatter c d d') (code : String) :
    newText tools d c code = newText tools d' c code := by
  have hformatted : formattedText tools.formatter d c = formattedText tools.formatter d' c := by
    funext code
    unfold formattedText
    split
    · rename_i hon
      rw [h.run hon]
    · rfl
  rw [newText, hformatted, newText]

section Still

variable {c : Context} {oracle : Oracle} {formatter : Formatter} {code : String} {f : Source.SourceFile} {o : Outcome}
  {ds : Set Disk} {d : Disk} {P : Payload → Prop}

/-- A text as data. -/
abbrev textPayload (s : String) : Payload := .plain (.text s)

theorem clear_text (s : String) : Clear (textPayload s) := fun _ h => by cases h

theorem still_done {p : Payload} (h : P p) (metadata : Metadata) : (done p metadata).Still ds fun r => Gives P r.result :=
  Work.still_pure fun _ => ⟨p, rfl, h⟩

theorem still_doneText (s : String) (metadata : Metadata) :
    (doneText s metadata).Still ds fun r => Gives (· = textPayload s) r.result :=
  still_done (P := (· = textPayload s)) rfl metadata

theorem still_failed (f : Failure) (metadata : Metadata) : (failed f metadata).Still ds fun r => Gives P r.result :=
  Work.still_pure gives_failure

theorem readSource_ok {source : String} (h : (readSource code source).value = .ok f) :
    Source.SourceFile.parse? code = some f := by
  unfold Rewrite.readSource at h
  split at h
  · rename_i hparse
    rw [hparse, Except.ok.inj h]
  · cases h

theorem still_parseStep (name : String) : ((parseStep name).execute c (some (textPayload code))).Still ds fun r =>
    Gives (fun p => ∃ f, Source.SourceFile.parse? code = some f ∧ p = .source f) r.result := by
  refine Work.Still.bind (P := (· = code)) (Work.still_pure rfl) fun code' hcode => ?_
  subst hcode
  split
  · exact still_done ⟨_, readSource_ok (by assumption), rfl⟩ _
  · exact still_failed _ _

theorem still_rewriteStep (name : String) : ((rewriteStep oracle name).execute c (some (.source f))).Still ds fun r =>
    Gives (fun p => ∃ s o, setupOf c.config oracle = .ok s ∧ (rewriteCalls s f).value = .ok o ∧ p = .rewriting o)
      r.result :=
  (Work.still_ofExcept _).bind fun s hs => (Work.still_ofRun _).bind fun o ho =>
    Work.still_pure fun _ => ⟨_, rfl, s, o, hs, ho, rfl⟩

theorem still_reconcileStep (name : String) : ((reconcileStep name).execute c (some (.rewriting o))).Still ds fun r =>
    Gives (fun p => ∃ m o', c.config.mapping = .ok m ∧ (reconcileImports m o).value = .ok o' ∧ p = .rewriting o')
      r.result := by
  refine (Work.still_ofExcept _).bind fun m hm => Work.Still.tryCatch ?_ fun f => ?_
  · exact (Work.still_ofRun _).bind fun o' ho => still_done ⟨m, o', hm, ho, rfl⟩ _
  · split
    · exact Work.still_pure gives_failure
    · exact Work.still_throw _

theorem still_generateStep (name : String) : ((generateStep name).execute c (some (.rewriting o))).Still ds fun r =>
    Gives (· = textPayload o.file.code) r.result :=
  still_doneText _ _

theorem still_formatStep (h : ∀ d' ∈ ds, FormatsAlike formatter c.config d' d) (name : String) :
    ((formatStep formatter name).execute c (some (textPayload code))).Still ds fun r =>
      Gives (fun p => ∃ new, formattedText formatter d c.config code = .ok new ∧ p = textPayload new) r.result := by
  show Work.Still ds _ (if _ then _ else _)
  split
  · rename_i hoff
    rw [Bool.not_eq_true'] at hoff
    refine Work.still_pure fun _ => ⟨_, rfl, code, ?_, rfl⟩
    rw [formattedText, if_neg (by rw [hoff]; exact Bool.false_ne_true)]
  · rename_i hon
    rw [Bool.not_eq_true', Bool.not_eq_false] at hon
    refine Work.Still.bind (P := (· = code)) (Work.still_pure rfl) fun code' hcode => ?_
    subst hcode
    refine (Work.still_ofExcept _).bind fun l hl => Work.still_disk_bind (fun d' hd' => by rw [(h d' hd').run hon]) ?_
    have htext : formattedText formatter d c.config code' = (formatter.run d l code').text code' := by
      rw [formattedText, if_pos hon, hl]
      rfl
    rw [htext]
    cases formatter.run d l code' with
    | formatted code'' => exact still_done ⟨code'', rfl, rfl⟩ _
    | declined message => exact Work.still_pure fun _ => ⟨_, rfl, code', rfl, rfl⟩
    | raised f => exact Work.still_throw f

theorem still_checkStep (name : String) : ((checkStep name).execute c (some (textPayload code))).Still ds fun r =>
    Gives (· = textPayload code) r.result := by
  show Work.Still ds _ (if _ then _ else _)
  split
  · exact still_doneText _ _
  · exact still_failed _ _

theorem still_logFailure {α : Type} (what path : String) (r : Result α) : (logFailure what path r).Still ds fun _ => True := by
  unfold logFailure
  split
  · exact Act.still_log _ _
  · exact Act.still_pure trivial

/-- A parsed file is rewritten in two steps, first its calls and then its imports. -/
theorem rewrittenText_ok {config : Config} {s : Setup} {m : Mapping} {o' : Outcome} (hs : setupOf config oracle = .ok s)
    (hm : config.mapping = .ok m) (hf : Source.SourceFile.parse? code = some f) (ho : (rewriteCalls s f).value = .ok o)
    (ho' : (reconcileImports m o).value = .ok o') : rewrittenText oracle config code = .ok o'.file.code := by
  obtain rfl : s.mapping = m := by
    rw [setupOf, hm] at hs
    cases hs
    rfl
  have hread : (readSource code "<string>").value = .ok f := by
    rw [Rewrite.readSource, hf]
    rfl
  have hcalls : rewriteResult s f = .ok o := (rewriteCalls_gives s f).value ▸ ho
  have hrewrite : (rewrite s f).value = .ok o' :=
    ((hcalls ▸ rewriteCalls_gives s f).step (ho' ▸ reconcileImports_gives s.mapping o)).value
  rw [rewrittenText, hs]
  show ((readSource code "<string>").value >>= _) = _
  rw [hread]
  show ((rewrite s f).value >>= _) = _
  rw [hrewrite]
  rfl

/-- Collecting leaves the disk alone and gives the new text of the source. -/
theorem still_collect : ((collect oracle).run c (some (textPayload code))).Still ds
    (Gives fun p => ∃ new, rewrittenText oracle c.config code = .ok new ∧ p = textPayload new) := by
  have hjob : ((collectorJob oracle).run c (some (textPayload code))).Still ds
      (Gives fun p => ∃ new, rewrittenText oracle c.config code = .ok new ∧ p = textPayload new) := by
    refine Job.still_run (fun p hp => ?_) ?_
    · obtain ⟨new, -, rfl⟩ := hp
      exact clear_text _
    · refine Task.still_cons _ (still_parseStep _) fun _ _ p hp => ?_
      obtain ⟨f, hf, rfl⟩ := hp
      refine Task.still_cons _ (still_rewriteStep _) fun _ _ p hp => ?_
      obtain ⟨s, o, hs, ho, rfl⟩ := hp
      refine Task.still_cons _ (still_reconcileStep _) fun _ _ p hp => ?_
      obtain ⟨m, o', hm, ho', rfl⟩ := hp
      refine Task.still_cons _ (still_generateStep _) fun _ _ p hp => ?_
      exact Task.still_nil _ ⟨o'.file.code, rewrittenText_ok hs hm hf ho ho', hp⟩
  exact hjob.bind fun r hr => (still_logFailure _ _ r).bind fun _ _ => Act.still_pure hr

/-- Formatting leaves the disk alone and gives the formatted text. -/
theorem still_format (h : ∀ d' ∈ ds, FormatsAlike formatter c.config d' d) :
    ((format formatter).run c (some (textPayload code))).Still ds
      (Gives fun p => ∃ new, formattedText formatter d c.config code = .ok new ∧ p = textPayload new) := by
  have hjob : ((formatterJob formatter).run c (some (textPayload code))).Still ds
      (Gives fun p => ∃ new, formattedText formatter d c.config code = .ok new ∧ p = textPayload new) := by
    refine Job.still_run (fun p hp => ?_) ?_
    · obtain ⟨new, -, rfl⟩ := hp
      exact clear_text _
    · refine Task.still_cons _ (still_formatStep h _) fun _ _ p hp => ?_
      obtain ⟨new, hnew, rfl⟩ := hp
      refine Task.still_cons _ (still_checkStep _) fun _ _ p hp => ?_
      exact Task.still_nil _ ⟨new, hnew, hp⟩
  exact hjob.bind fun r hr => (still_logFailure _ _ r).bind fun _ _ => Act.still_pure hr

end Still

/-! ### Writing -/

/-- The path for the copy of a source, if there is one. -/
def copies (root : Option String) (s : String) : List FilePath := (backupPath s root).toOption.toList

theorem mem_copies {root : Option String} {s : String} {p : FilePath} : p ∈ copies root s ↔ backupPath s root = .ok p := by
  unfold copies
  cases backupPath s root with
  | ok q => simp [Except.toOption, eq_comm]
  | error f => simp [Except.toOption]

/-- How copying a source whose text becomes `new` ends. -/
inductive Copying (c : Config) (source code new : String) (d : Disk) : Except Failure (Option FilePath) → Disk → Prop
  | unneeded (h : c.isOn .keepBackups = false ∨ new = code) : Copying c source code new d (.ok none) d
  | nowhere {f : Failure} (h : backupPath source (c.textOf? .backupRoot) = .error f) :
      Copying c source code new d (.error f) d
  | kept {p : FilePath} {answer : Except Failure (Option FilePath)} {d' : Disk} (changed : new ≠ code)
      (path : backupPath source (c.textOf? .backupRoot) = .ok p) (kept : Kept source p d answer d') :
      Copying c source code new d answer d'

/-- What became of a target. -/
inductive Fate where
  | planned
  | failed
  | same
  | written

/-- How the output job ends that puts the text `new` in the place of the text `code` of a source. -/
inductive Ended (c : Config) (source : String) (t : FilePath) (code new : String) (d : Disk) : Fate → Disk → Prop
  | planned (on : c.isOn .dryRun = true) : Ended c source t code new d .planned d
  | uncopied {f : Failure} {d' : Disk} (off : c.isOn .dryRun = false) (copy : Copying c source code new d (.error f) d') :
      Ended c source t code new d .failed d'
  | refused {x : Option FilePath} {d₁ d' : Disk} (off : c.isOn .dryRun = false)
      (copy : Copying c source code new d (.ok x) d₁) (made : Disk.Grows [] t.parent.reach d₁ d') :
      Ended c source t code new d .failed d'
  | same (off : c.isOn .dryRun = false) (place : Place.ofPath t = Place.named source) (text : new = code) :
      Ended c source t code new d .same d
  | written {x : Option FilePath} {d₁ d' : Disk} (off : c.isOn .dryRun = false)
      (copy : Copying c source code new d (.ok x) d₁) (changed : Place.ofPath t = Place.named source → new ≠ code)
      (grows : Disk.Grows [Place.ofPath t] t.parent.reach d₁ d') (content : d'.content? t.text = some new.toUTF8) :
      Ended c source t code new d .written d'

/-- What the result of a file says about its target: the name of it and what became of it, unless it is a failure. -/
def Says (t : FilePath) (new : String) (r : Result Payload) (fate : Fate) : Prop :=
  let ends (key : String) (v : Value) : Prop :=
    r.isOk = true ∧ r.data = some (textPayload t.text) ∧ r.metadata.get? key = some v
  match fate with
  | .failed => r.isError = true
  | .planned => ends "generated_code" (.text new)
  | .same => ends "written" (.bool false)
  | .written => ends "written" (.bool true)

section Output

variable {c : Context} {code new : String} {system : System} {d d₁ : Disk} {t : FilePath}

theorem isOriginal_text (h : c.metadata.get? originalKey = some (.text code)) :
    isOriginal c (some (textPayload new)) = decide (new = code) := by
  rw [isOriginal, h]
  rfl

/-- Copying the source. -/
theorem runs_backUp (h : c.metadata.get? originalKey = some (.text code)) (hdry : c.config.isOn .dryRun = false) :
    (backUp c (some (textPayload new))).Runs system d (Copying c.config c.source code new d) := by
  unfold backUp
  split
  · rename_i hneeds
    have hchanged : new ≠ code := by
      intro heq
      simp [needsBackup, isOriginal_text h, heq] at hneeds
    cases hp : backupPath c.source (c.config.textOf? .backupRoot) with
    | error f =>
      rw [keepBackup, hp]
      exact Work.runs_ofExcept_bind (fun _ h => by cases h) fun m hm => by cases hm; exact .nowhere hp
    | ok p => exact (runs_keepBackup hp).mono fun e d' hkept => .kept hchanged hp hkept
  · rename_i hneeds
    refine Work.runs_pure (.unneeded ?_)
    simp only [needsBackup, isOriginal_text h, hdry, Bool.not_false, Bool.and_true, Bool.and_eq_true, Bool.not_eq_true',
      decide_eq_false_iff_not, not_and, not_not] at hneeds
    by_cases hkeep : c.config.isOn .keepBackups = true
    · exact .inr (hneeds hkeep)
    · exact .inl (Bool.eq_false_iff.mpr hkeep)

/-- How the output job ended, as a result with different keys says. -/
def Told (c : Config) (source : String) (t : FilePath) (code new : String) (d : Disk) (r : Result Payload) (d' : Disk) :
    Prop :=
  ∃ fate, Ended c source t code new d fate d' ∧ Says t new r fate ∧ (r.isError = false → (r.metadata.map (·.1)).Nodup)

theorem Told.fails {source : String} {d' : Disk} (h : Ended c.config source t code new d .failed d') :
    Fails (Told c.config source t code new d · d') :=
  fun _ hr => ⟨.failed, h, hr, fun hok => by rw [hr] at hok; cases hok⟩

/-- Nothing is copied when nothing changes. -/
theorem Copying.same {c : Config} {source : String} {answer : Except Failure (Option FilePath)}
    (h : Copying c source code code d answer d₁) : d₁ = d := by
  cases h with
  | unneeded => rfl
  | nowhere => rfl
  | kept changed => exact absurd rfl changed

theorem told_done {source : String} {fate : Fate} {d' : Disk} {metadata : Metadata}
    (h : Ended c.config source t code new d fate d') (hnodup : (metadata.map (·.1)).Nodup)
    (htold : Says t new (.success (textPayload t.text) metadata) fate) :
    Comes (Told c.config source t code new d · d') (.ok (.ofResult (.success (textPayload t.text) metadata))) :=
  .inr ⟨_, _, clear_text _, hnodup, rfl, fate, h, htold, fun _ => hnodup⟩

/-- Writing the target after the source was copied. -/
theorem runs_writeStep {name : String} {x : Option FilePath} (h : c.metadata.get? originalKey = some (.text code))
    (hdry : c.config.isOn .dryRun = false) (ht : t.IsNormal) (htarget : c.target = t.text)
    (hcopy : Copying c.config c.source code new d (.ok x) d₁) :
    ((writeStep name).execute c (some (textPayload new))).Runs system d₁ fun e d' =>
      Comes (Told c.config c.source t code new d · d') e := by
  have hplace : isInPlace c = decide (Place.ofPath t = Place.named c.source) := by
    rw [isInPlace, htarget, FilePath.ofString_text ht]
    rfl
  show Work.Runs system (if _ then _ else _) d₁ _
  rw [if_neg (by rw [hdry]; exact Bool.false_ne_true), hplace, isOriginal_text h, htarget]
  split
  · rename_i hsame
    -- what is the same is not written, so nothing was copied either
    obtain ⟨hplace, rfl⟩ : Place.ofPath t = Place.named c.source ∧ new = code := by simpa using hsame
    obtain rfl := hcopy.same
    exact Work.runs_pure (told_done (.same hdry hplace rfl) (by simp) ⟨rfl, rfl, rfl⟩)
  · rename_i hchanged
    have hwrote : (writeTarget c (some (textPayload new))).Runs system d₁ (Wrote t.text (· = new.toUTF8) d₁) := by
      show (writeSource c.target new (retriesOf c.config)).Runs system d₁ _
      rw [htarget]
      exact runs_writeSource
    refine Work.runs_tryCatch (Work.runs_bind (hwrote.mono fun e d' hd' => ?_))
    cases e with
    | ok _ =>
      obtain ⟨hgrows, b, rfl, hcontent⟩ := hd'
      rw [Place.named_text ht, FilePath.ofString_text ht] at hgrows
      refine Work.runs_pure (told_done (.written hdry hcopy ?_ hgrows hcontent) (by simp) ⟨rfl, rfl, rfl⟩)
      exact fun hplace htext => hchanged (by simp [hplace, htext])
    | error m =>
      have hfails : Fails (Told c.config c.source t code new d · d') := by
        refine Told.fails (.refused hdry hcopy ?_)
        rw [← congrArg FilePath.parent (FilePath.ofString_text ht)]
        exact hd'
      show Work.Runs system (if _ then _ else _) d' _
      split
      · exact Work.runs_pure (.inl ⟨hfails, rfl⟩)
      · exact Work.runs_throw hfails

theorem Says.withMetadata {r : Result Payload} {fate : Fate} (h : Says t new r fate) (v : Value) :
    Says t new (r.withMetadata "backup_file" v) fate := by
  cases fate with
  | failed => exact h
  | planned | same | written =>
    obtain ⟨hok, hdata, hget⟩ := h
    refine ⟨hok, hdata, ?_⟩
    rw [Result.withMetadata, Metadata.get?_put, if_neg (by decide)]
    exact hget

theorem Told.withMetadata {source : String} {r : Result Payload} {d' : Disk}
    (h : Told c.config source t code new d r d') (v : Value) :
    Told c.config source t code new d (r.withMetadata "backup_file" v) d' := by
  obtain ⟨fate, hended, htold, hnodup⟩ := h
  refine ⟨fate, hended, htold.withMetadata v, fun hok => ?_⟩
  exact Metadata.nodup_put (hnodup hok)

/-- The path of the copy is noted in the result. -/
theorem Told.noted {source : String} {r : Result Payload} {d' : Disk} (h : Told c.config source t code new d r d')
    (backup : Option FilePath) :
    Told c.config source t code new d (match backup with
      | some b => if r.isOk then r.withMetadata "backup_file" (.text b.text) else r
      | none => r) d' := by
  split
  · split
    · exact h.withMetadata _
    · exact h
  · exact h

/-- The output job. -/
theorem runs_output (h : c.metadata.get? originalKey = some (.text code)) (ht : t.IsNormal) (htarget : c.target = t.text) :
    (output.run c (some (textPayload new))).Runs system d (Told c.config c.source t code new d) := by
  -- what the step gives is logged, and the path of the copy noted
  have hend : ∀ {r : Result Payload} (backup : Option FilePath) {d'}, Told c.config c.source t code new d r d' →
      Act.Runs system (do
        logFailure "Output" c.target r
        if !r.isError && c.config.isOn .dryRun then
          Act.log .info ("Dry-run: would write output to " ++ c.target)
        return match backup with
          | some b => if r.isOk then r.withMetadata "backup_file" (.text b.text) else r
          | none => r) d' (Told c.config c.source t code new d) := by
    intro r backup d' htold
    have hresult := htold.noted backup
    refine Act.runs_bind (((still_logFailure _ _ r).runs (Set.mem_univ _)).mono fun _ d₂ hd₂ => ?_)
    obtain ⟨-, rfl⟩ := hd₂
    by_cases hlog : (!r.isError && c.config.isOn .dryRun) = true
    · rw [if_pos hlog]
      exact Act.runs_log_bind (Act.runs_pure hresult)
    · rw [if_neg hlog]
      exact Act.runs_pure hresult
  by_cases hdry : c.config.isOn .dryRun = true
  · -- a dry run copies and writes nothing
    have hnone : (backUp c (some (textPayload new))).Runs system d fun e d' => e = .ok none ∧ d' = d := by
      rw [backUp, if_neg (by simp [needsBackup, hdry])]
      exact Work.runs_pure ⟨rfl, rfl⟩
    refine Act.runs_bind (Act.runs_work (hnone.mono fun e d₁ hd₁ => ?_))
    obtain ⟨rfl, rfl⟩ := hd₁
    refine Act.runs_bind ((Job.runs_single (Q := Told c.config c.source t code new d₁) ?_).mono fun r d' hr => hend none hr)
    show Work.Runs system (if _ then _ else _) d₁ _
    rw [if_pos hdry, htarget]
    exact Work.runs_pure (told_done (.planned hdry) (by simp) ⟨rfl, rfl, rfl⟩)
  · rw [Bool.not_eq_true] at hdry
    refine Act.runs_bind (Act.runs_work ((runs_backUp h hdry).mono fun e d₁ hcopy => ?_))
    cases e with
    | error m => exact Act.runs_log_bind (Act.runs_pure (Told.fails (.uncopied hdry hcopy) _ rfl))
    | ok x => exact Act.runs_bind ((Job.runs_single (runs_writeStep h hdry ht htarget hcopy)).mono fun r d' hr => hend x hr)

end Output

end FluentShift.Migration
