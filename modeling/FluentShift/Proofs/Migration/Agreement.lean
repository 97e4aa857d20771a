import FluentShift.Proofs.Migration.Targets
import FluentShift.Proofs.Engine.Answers
import FluentShift.Proofs.Rewrite.Repeat

/-!
# FluentShift.Proofs.Migration.Agreement - migrating a file and migrating its text

A file goes through three jobs and seven steps, its text through `migrateWithOutcome`.  Here is what each step comes to
(`comes_parseStep` and its siblings), from these what each job comes to (`comes_collect`, `comes_format`,
`comes_output`), and from these the whole pipeline, when nothing is formatted and nothing written.  What the first job
comes to is `drafted`, and `matches_drafted` says that the text alone comes to the same, or fails with the same kind of
failure; `migrateFile_agrees` takes that through the reading of the file.
-/

namespace FluentShift.Migration

open FluentShift.Files FluentShift.Engine FluentShift.Rewrite FluentShift.Types

/-! ### Steps -/

section Steps

variable {c : Context} {oracle : Oracle} {formatter : Formatter} {code name : String} {f : Source.SourceFile} {o : Outcome}

theorem comes_done {s : Step} {input : Option Payload} {p : Payload} {m : Metadata} (h : s.execute c input = done p m)
    (hm : (m.map (·.1)).Nodup) : (s.run c input).Still Set.univ (ComesTo (.ok (p, m))) :=
  Step.comes_run (h.symm ▸ Work.answers_pure (Report.ofResult (.success p m)) :
    (s.execute c input).Answers (.ok (.ofResult (.success p m)))) ⟨rfl, hm⟩

theorem comes_failed {s : Step} {input : Option Payload} {f : Failure} {m : Metadata}
    (h : s.execute c input = failed f m) : (s.run c input).Still Set.univ (ComesTo (.error f)) :=
  Step.comes_run (h.symm ▸ Work.answers_pure (Report.ofResult (.failure f m)) :
    (s.execute c input).Answers (.ok (.ofResult (.failure f m)))) comesTo_failure

theorem comes_parseStep : ((parseStep name).run c (some (textPayload code))).Still Set.univ
    (ComesTo ((Rewrite.readSource code c.source).value.map fun f => (.source f, []))) := by
  have htake : takeText (some (textPayload code)) = pure code := rfl
  cases hread : (Rewrite.readSource code c.source).value with
  | ok f =>
    refine comes_done ?_ List.nodup_nil
    simp only [parseStep, htake, pure_bind, hread]
  | error e =>
    refine comes_failed (m := aboutSource c) ?_
    simp only [parseStep, htake, pure_bind, hread]

/-- What rewriting the calls of a file comes to under a configuration. -/
def callsRewritten (oracle : Oracle) (config : Config) (f : Source.SourceFile) : Except Failure Outcome := do
  let s ← setupOf config oracle
  (rewriteCalls s f).value

theorem comes_rewriteStep : ((rewriteStep oracle name).run c (some (.source f))).Still Set.univ
    (ComesTo ((callsRewritten oracle c.config f).map fun o => (.rewriting o,
      [("calls_rewritten", .ofNat o.rewritten.length), ("calls_skipped", .ofNat o.skipped.length)]))) := by
  refine Step.comes_run ((Work.answers_ofExcept _).bind fun s => (Work.answers_ofRun _).bind fun o =>
    Work.answers_pure _) ?_
  unfold callsRewritten
  cases setupOf c.config oracle with
  | error e => rfl
  | ok s =>
    show Reports ((rewriteCalls s f).value.map _) ((rewriteCalls s f).value >>= _)
    cases (rewriteCalls s f).value with
    | error e => rfl
    | ok o => exact ⟨rfl, by simp⟩

/-- What fixing the imports of a file comes to under a configuration. -/
def importsFixed (config : Config) (o : Outcome) : Except Failure Outcome := do
  let m ← config.mapping
  (reconcileImports m o).value

theorem comes_reconcileStep : ((reconcileStep name).run c (some (.rewriting o))).Still Set.univ
    (ComesTo ((importsFixed c.config o).map fun o => (.rewriting o,
      [("import_edits", .ofTexts (o.edits.map Imports.Edit.reportLine))]))) := by
  unfold importsFixed
  cases hm : c.config.mapping with
  | error e => exact Step.comes_run ((Work.answers_ofExcept _).congr hm).fails rfl
  | ok m =>
    have hmapping := (Work.answers_ofExcept c.config.mapping).congr hm
    show ((reconcileStep name).run c _).Still Set.univ (ComesTo ((reconcileImports m o).value.map _))
    cases ho : (reconcileImports m o).value with
    | ok o' =>
      have himports := (Work.answers_ofRun (reconcileImports m o)).congr ho
      have hdone : Work.Answers _ (done (.rewriting o')
          [("import_edits", .ofTexts (o'.edits.map Imports.Edit.reportLine))]) := Work.answers_pure _
      exact Step.comes_run (hmapping.then (himports.then hdone).tried) ⟨rfl, by simp⟩
    | error f =>
      have himports := (Work.answers_ofRun (reconcileImports m o)).congr ho
      cases f with
      | reconciliation =>
        exact Step.comes_run (hmapping.then (himports.fails.handled (Work.answers_pure _))) comesTo_failure
      | _ => exact Step.comes_run (hmapping.then (himports.fails.handled (Work.answers_throw _))) rfl

theorem comes_generateStep : ((generateStep name).run c (some (.rewriting o))).Still Set.univ
    (ComesTo (.ok (textPayload o.file.code, [("migration_report", o.report), ("changed", .bool o.changed)]))) :=
  comes_done rfl (by simp)

theorem comes_formatStep (hformat : c.config.isOn .format = false) :
    ((formatStep formatter name).run c (some (textPayload code))).Still Set.univ
      (ComesTo (.ok (textPayload code, [("formatted", .bool false)]))) := by
  refine comes_done ?_ (by simp)
  show (if _ then _ else _) = _
  rw [hformat]
  rfl

theorem comes_checkStep : ((checkStep name).run c (some (textPayload code))).Still Set.univ
    (ComesTo (if parses code then .ok (textPayload code, []) else
      .error (.badOutput ("Generated code for " ++ c.source ++ " does not parse")))) := by
  have hexecute : (checkStep name).execute c (some (textPayload code)) =
      if parses code then doneText code []
      else failed (.badOutput ("Generated code for " ++ c.source ++ " does not parse")) (aboutSource c) := rfl
  cases hparses : parses code with
  | true =>
    rw [hparses] at hexecute
    exact comes_done hexecute List.nodup_nil
  | false =>
    rw [hparses] at hexecute
    exact comes_failed hexecute

theorem comes_writeStep (hdry : c.config.isOn .dryRun = true) :
    ((writeStep name).run c (some (textPayload code))).Still Set.univ
      (ComesTo (.ok (textPayload c.target,
        [("dry_run", .bool true), ("target_file", .text c.target), ("generated_code", .text code)]))) :=
  comes_done (if_pos hdry) (by simp)

end Steps

/-! ### Jobs -/

section Jobs

variable {c : Context} {oracle : Oracle} {formatter : Formatter} {code : String}

/-- The notes on the rewriting of a file. -/
def rewritingNotes (o o' : Outcome) : Metadata :=
  [("calls_rewritten", .ofNat o.rewritten.length), ("calls_skipped", .ofNat o.skipped.length),
    ("import_edits", .ofTexts (o'.edits.map Imports.Edit.reportLine)), ("migration_report", o'.report),
    ("changed", .bool o'.changed)]

theorem nodup_rewritingNotes (o o' : Outcome) : ((rewritingNotes o o').map (·.1)).Nodup := by simp [rewritingNotes]

/-- What the text of a source becomes, and what there is to say about it. -/
def drafted (oracle : Oracle) (c : Context) (code : String) : Except Failure (Payload × Metadata) := do
  let f ← (Rewrite.readSource code c.source).value
  let o ← callsRewritten oracle c.config f
  let o' ← importsFixed c.config o
  return (textPayload o'.file.code, rewritingNotes o o')

theorem drafted_ok {p : Payload} {m : Metadata} (h : drafted oracle c code = .ok (p, m)) :
    ∃ f o o', (Rewrite.readSource code c.source).value = .ok f ∧ callsRewritten oracle c.config f = .ok o ∧
      importsFixed c.config o = .ok o' ∧ p = textPayload o'.file.code ∧ m = rewritingNotes o o' := by
  obtain ⟨f, hf, h⟩ := Except.bind_eq_ok.mp h
  obtain ⟨o, ho, h⟩ := Except.bind_eq_ok.mp h
  obtain ⟨o', ho', h⟩ := Except.bind_eq_ok.mp h
  cases h
  exact ⟨f, o, o', hf, ho, ho', rfl, rfl⟩

theorem comes_logged {α : Type} {what path : String} {a : Act (Result α)} {P : Result α → Prop} (h : a.Still Set.univ P) :
    Act.Still Set.univ P (do
      let r ← a
      logFailure what path r
      return r) :=
  h.bind fun r hr => (still_logFailure what path r).bind fun _ _ => Act.still_pure hr

theorem comes_collect : ((collect oracle).run c (some (textPayload code))).Still Set.univ (ComesTo (drafted oracle c code)) := by
  refine comes_logged (Job.comes_run ?_ fun p m h => ?_)
  · refine Sequence.comes_bind comes_parseStep (fun f => rfl) fun f _ => ?_
    refine Sequence.comes_bind comes_rewriteStep (fun o => rfl) fun o _ => ?_
    refine Sequence.comes_bind comes_reconcileStep (fun o => rfl) fun o' _ => ?_
    exact Sequence.comes_pass comes_generateStep rfl (Sequence.comes_nil (nodup_rewritingNotes o o'))
  · obtain ⟨f, o, o', -, -, -, rfl, -⟩ := drafted_ok h
    exact clear_text _

/-- What checking a text comes to. -/
def checked (c : Context) (code : String) : Except Failure (Payload × Metadata) :=
  if parses code then .ok (textPayload code, [("formatted", .bool false)])
  else .error (.badOutput ("Generated code for " ++ c.source ++ " does not parse"))

theorem comes_format (hformat : c.config.isOn .format = false) :
    ((format formatter).run c (some (textPayload code))).Still Set.univ (ComesTo (checked c code)) := by
  refine comes_logged (Job.comes_run ?_ fun p m h => ?_)
  · refine Sequence.comes_pass (comes_formatStep hformat) rfl ?_
    have hcheck : ((checkStep "validate_code").run c (some (textPayload code))).Still Set.univ _ := comes_checkStep
    unfold checked
    split
    · rename_i hparses
      rw [if_pos hparses] at hcheck
      exact Sequence.comes_pass hcheck rfl (Sequence.comes_nil (List.nodup_singleton "formatted"))
    · rename_i hparses
      rw [if_neg hparses] at hcheck
      exact Sequence.comes_fail hcheck
  · unfold checked at h
    split at h
    · cases h
      exact clear_text _
    · cases h

/-- The notes on a text that is not written. -/
def dryNotes (target code : String) : Metadata :=
  [("dry_run", .bool true), ("target_file", .text target), ("generated_code", .text code)]

theorem nodup_dryNotes (target code : String) : ((dryNotes target code).map (·.1)).Nodup := by simp [dryNotes]

/-- All notes on a text that is rewritten but neither formatted nor written. -/
def plannedNotes (o o' : Outcome) (target : String) : Metadata :=
  rewritingNotes o o' ++ [("formatted", .bool false)] ++ dryNotes target o'.file.code

theorem nodup_plannedNotes (o o' : Outcome) (target : String) : ((plannedNotes o o' target).map (·.1)).Nodup := by
  simp [plannedNotes, rewritingNotes, dryNotes]

theorem merge_plannedNotes (o o' : Outcome) (target : String) :
    ((Metadata.merge [] (rewritingNotes o o')).merge [("formatted", .bool false)]).merge
      (dryNotes target o'.file.code) = plannedNotes o o' target := by
  have hall := nodup_plannedNotes o o' target
  have hfirst : (((rewritingNotes o o' ++ [("formatted", .bool false)] : Metadata)).map (·.1)).Nodup := by
    rw [plannedNotes, List.map_append] at hall
    exact hall.of_append_left
  rw [Metadata.merge_nil (nodup_rewritingNotes o o'), Metadata.merge_append hfirst, Metadata.merge_append hall]
  rfl

theorem comes_output (hdry : c.config.isOn .dryRun = true) :
    (output.run c (some (textPayload code))).Still Set.univ (ComesTo (.ok (textPayload c.target, dryNotes c.target code))) := by
  have hcopy : (backUp c (some (textPayload code))).Answers (.ok none) := by
    rw [backUp, if_neg (by simp [needsBackup, hdry])]
    exact Work.answers_pure none
  have hwork : Act.Still Set.univ (· = .ok none) (Act.work (backUp c (some (textPayload code)))) :=
    ⟨.ok none, rfl, fun system d _ => Act.runs_work (hcopy system d)⟩
  have hjob : (outputJob.run c (some (textPayload code))).Still Set.univ
      (ComesTo (.ok (textPayload c.target, dryNotes c.target code))) := by
    refine Job.comes_run (Sequence.comes_pass (comes_writeStep hdry) rfl (Sequence.comes_nil (nodup_dryNotes _ _))) ?_
    intro p m h
    cases h
    exact clear_text _
  refine hwork.bind fun e he => ?_
  subst he
  refine hjob.bind fun r hr => (still_logFailure _ _ r).bind fun _ _ => ?_
  by_cases hlog : (!r.isError && c.config.isOn .dryRun) = true
  · rw [if_pos hlog]
    exact (Act.still_log _ _).bind fun _ _ => Act.still_pure hr
  · rw [if_neg hlog]
    exact Act.still_pure hr

end Jobs

/-! ### Files -/

section Files

variable {c : Context} {tools : Tools} {code : String} {f : Source.SourceFile} {o o' : Outcome}

/-- A text that cannot be rewritten is not migrated, for the same reason. -/
theorem comes_pipeline_error {e : Failure} (h : drafted tools.oracle c code = .error e) :
    ((pipeline tools).run c (some (textPayload code))).Still Set.univ (ComesTo (.error e)) := by
  rw [Pipeline.run_eq_stages]
  exact Sequence.comes_run (Sequence.comes_fail (h ▸ comes_collect))

/-- What the pipeline comes to when nothing is written and nothing formatted. -/
theorem comes_pipeline (hdry : c.config.isOn .dryRun = true) (hformat : c.config.isOn .format = false)
    (h : drafted tools.oracle c code = .ok (textPayload o'.file.code, rewritingNotes o o')) :
    ((pipeline tools).run c (some (textPayload code))).Still Set.univ (ComesTo
      (if parses o'.file.code then
        .ok (textPayload c.target, plannedNotes o o' c.target)
      else .error (.badOutput ("Generated code for " ++ c.source ++ " does not parse")))) := by
  have hcollect : ((collect tools.oracle).run c (some (textPayload code))).Still Set.univ _ := h ▸ comes_collect
  have hchecked : ((format tools.formatter).run c (some (textPayload o'.file.code))).Still Set.univ _ := comes_format hformat
  rw [Pipeline.run_eq_stages]
  refine Sequence.comes_run (Sequence.comes_pass hcollect rfl ?_)
  unfold checked at hchecked
  split
  · rename_i hparses
    rw [if_pos hparses] at hchecked
    refine Sequence.comes_pass hchecked rfl ?_
    refine Sequence.comes_pass (comes_output hdry) rfl ?_
    have hnotes := merge_plannedNotes o o' c.target
    have hnodup := nodup_plannedNotes o o' c.target
    rw [← hnotes] at hnodup ⊢
    exact Sequence.comes_nil hnodup
  · rename_i hparses
    rw [if_neg hparses] at hchecked
    exact Sequence.comes_fail hchecked

end Files

/-! ### The text of a file -/

section Text

variable {c : Config} {oracle : Oracle} {s : Setup} {code out : String} {f : Source.SourceFile} {o o' : Outcome}

theorem mapping_of_setupOf (h : setupOf c oracle = .ok s) : c.mapping = .ok s.mapping := by
  obtain ⟨m, hm, rfl⟩ := Except.map_eq_ok.mp h
  exact hm

/-- How the text of a file was drafted, if the text alone comes to `e`: to the same text with the same calls, or to a
failure of the same kind. -/
def Matches (e : Except Failure (String × Outcome)) (draft : Except Failure (Payload × Metadata)) : Prop :=
  match e with
  | .ok (out, o') => ∃ o, draft = .ok (textPayload o'.file.code, rewritingNotes o o') ∧
      o.rewritten = o'.rewritten ∧ o.skipped = o'.skipped ∧ (o'.rewritten ≠ [] → out = o'.file.code)
  | .error f => ∃ g, draft = .error g ∧ g.typeName = f.typeName

theorem matches_drafted (hsetup : setupOf c oracle = .ok s) {context : Context} (hconfig : context.config = c) :
    Matches (migrateWithOutcome s code).value (drafted oracle context code) := by
  rw [value_migrateWithOutcome]
  unfold drafted callsRewritten importsFixed
  rw [hconfig, hsetup, mapping_of_setupOf hsetup]
  cases hparse : Source.SourceFile.parse? code with
  | none =>
    rw [readSource_error hparse, readSource_error hparse]
    exact ⟨_, rfl, rfl⟩
  | some f =>
    rw [readSource_eq hparse, readSource_eq hparse]
    show Matches ((rewriteCalls s f).value >>= _) ((rewriteCalls s f).value >>= _)
    cases (rewriteCalls s f).value with
    | error e => exact ⟨_, rfl, rfl⟩
    | ok o =>
      show Matches ((reconcileImports s.mapping o).value >>= _) ((reconcileImports s.mapping o).value >>= _)
      cases hfix : (reconcileImports s.mapping o).value with
      | error e => exact ⟨_, rfl, rfl⟩
      | ok o' =>
        obtain ⟨hrewritten, hskipped, -⟩ := reconcileImports_ok hfix
        refine ⟨o, rfl, hrewritten.symm, hskipped.symm, fun hne => if_pos ?_⟩
        simp [Outcome.changed, hne]

end Text

/-! ### The disk -/

section Disk

variable {tools : Tools} {c : Config} {source code runId : String} {system : System} {d : Disk}

/-- A text that is on the disk and may be read is read. -/
theorem runs_readSource_ok {path : String} {retries : Int} (hallowed : system.LetsRead path)
    (h : d.content? path = some code.toUTF8) :
    (Files.readSource path retries).Runs system d fun e d' => e = .ok code ∧ d' = d := by
  have hread : ∀ n, d.readUnder (system.answers n) path >>= textOf = .ok code := by
    intro n
    rw [Disk.readUnder, Disk.read, Disk.look_of_content? h, Answers.grant, hallowed n]
    show textOf code.toUTF8 = _
    rw [textOf, decode_toUTF8]
  refine Work.runs_retrying (P := (· = d)) (fun n d' hd' => ⟨?_, fun _ _ => hd'⟩) rfl
  rw [hd', hread]
  exact ⟨rfl, rfl⟩

theorem validateSource_of_content? (hname : Text.isBlankText source = false)
    (h : d.content? (FilePath.ofString source).text = some code.toUTF8) :
    validateSource d source = .ok (FilePath.ofString source) := by
  rw [validateSource, hname, Disk.find, Disk.look_of_content? h]
  rfl

theorem exists_targetPath (htyped : c.isOn .targetRoot = true → ∃ root, c.value .targetRoot = .text root)
    (source : String) : ∃ t, c.targetPath source = .ok t := by
  unfold Config.targetPath
  by_cases hroot : c.isOn .targetRoot = true
  · obtain ⟨root, hroot'⟩ := htyped hroot
    rw [if_pos hroot, hroot']
    exact ⟨_, rfl⟩
  · rw [if_neg hroot]
    exact ⟨_, rfl⟩

/-- The context in which the text of a source is migrated. -/
def contextOf (c : Config) (runId source code : String) (t : FilePath) : Context :=
  Context.note ⟨(FilePath.ofString source).text, t.text, c, runId, []⟩ originalKey (.text code)

/-- Migrating a file comes to what the pipeline comes to on its text, and leaves the disk as it was. -/
theorem runs_migrateFile_comes {t : FilePath} {e : Except Failure (Payload × Metadata)}
    (hallowed : system.LetsRead source) (hname : Text.isBlankText source = false)
    (hcontent : d.content? (FilePath.ofString source).text = some code.toUTF8)
    (hsize : isTooLarge c code.toUTF8.size = .ok false) (htarget : c.targetPath source = .ok t)
    (hpipeline : ((pipeline tools).run (contextOf c runId source code t) (some (textPayload code))).Still Set.univ
      (ComesTo e)) :
    Act.Runs system (migrateFile tools c runId source).run d fun answer d' =>
      ∃ r, answer = .ok r ∧ ComesTo e r ∧ d' = d := by
  refine runs_attempt_session fun session hsession => ?_
  subst hsession
  simp only [validateSource_of_content? hname hcontent, hcontent, Option.map_some, Option.getD_some, hsize]
  refine runs_attempt_bind (runs_attempt_ofExcept ?_)
  show Act.Runs system (ExceptT.run (if false = true then _ else _)) _ _
  rw [if_neg Bool.false_ne_true]
  have hallowed' : system.LetsRead (FilePath.ofString source).text := fun n => by
    rw [named_text_ofString]
    exact hallowed n
  refine runs_attempt_bind (runs_attempt_lift (Act.runs_work ((runs_readSource_ok hallowed' hcontent).mono
    fun read d₁ h => ?_)))
  obtain ⟨rfl, rfl⟩ := h
  show Act.Runs system (migrateText tools c runId source (FilePath.ofString source) code).run _ _
  have hcontext : Context.create (FilePath.ofString source).text none c none runId =
      .ok ⟨(FilePath.ofString source).text, t.text, c, runId, []⟩ := by
    rw [Context.create, targetPath_text, htarget]
    rfl
  unfold migrateText
  rw [hcontext]
  refine runs_attempt_bind (runs_attempt_ofExcept ?_)
  refine runs_attempt_bind (runs_attempt_lift ((hpipeline.runs (Set.mem_univ _)).mono fun r d₂ h => ?_))
  obtain ⟨hr, rfl⟩ := h
  refine runs_attempt_bind (runs_attempt_lift (((still_logOutcome r).runs (Set.mem_univ _)).mono fun _ d₃ hlog => ?_))
  obtain ⟨-, rfl⟩ := hlog
  exact Act.runs_pure ⟨r, rfl, hr, rfl⟩

end Disk

/-! ### Agreement -/

/-- The result of a file says what the rewriting of its text came to. -/
structure Tells (r : Result Payload) (out : String) (o : Outcome) : Prop where
  code : r.metadata.get? "generated_code" = some (.text out)
  report : r.metadata.get? "migration_report" = some o.report
  rewritten : r.metadata.get? "calls_rewritten" = some (.ofNat o.rewritten.length)
  skipped : r.metadata.get? "calls_skipped" = some (.ofNat o.skipped.length)

theorem tells_planned {o o' : Outcome} (hrewritten : o.rewritten = o'.rewritten) (hskipped : o.skipped = o'.skipped)
    (target : String) :
    Tells (.success (textPayload target) (plannedNotes o o' target)) o'.file.code o' := by
  refine ⟨rfl, rfl, ?_, ?_⟩
  · rw [← hrewritten]
    rfl
  · rw [← hskipped]
    rfl

/-- The standard configuration for a dry run. -/
def dryConfig : Config :=
  { Config.standard with value := fun s => if s = .dryRun then .bool true else Config.standard.value s }

/-- A disk with a source that has two calls. -/
def callDisk : Disk := ⟨[(["t.py"], .file shortText.toUTF8)]⟩

end FluentShift.Migration
