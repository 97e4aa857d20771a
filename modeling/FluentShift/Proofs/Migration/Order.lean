import FluentShift.Proofs.Engine.Twins
import FluentShift.Proofs.Migration.Batch

/-!
# FluentShift.Proofs.Migration.Order - the order in which files are migrated

Files whose paths keep clear of each other come to the same in every order, one after the other or in the turns of a pool:
what each of them comes to alone (`migrateFiles_inAnyOrder`).  The system has to allow the same at every attempt for that,
and formatting must not look at the disk.  The paths have to go down from directories that are there, though: a path that
leaves a directory again which is made for another file leads elsewhere once that one is migrated (`lostCopy_detour`).
-/

namespace FluentShift.Migration

open FluentShift.Files FluentShift.Engine FluentShift.Types

/-! ### One file on two disks -/

section Twins

variable {tools : Tools} {a : Answers} {c : Config} {runId source : String} {ps : List FilePath} {r t : FilePath}

theorem twin_attempt_ofExcept_bind {α β : Type} {e : Except Failure β} {f : β → Attempt α}
    (h : ∀ b, e = .ok b → Act.Twin a ps (f b).run) : Act.Twin a ps (Attempt.ofExcept e >>= f).run := by
  cases e with
  | ok b => exact h b rfl
  | error m => exact twin_pure _

theorem twin_attempt_lift {α : Type} {act : Act α} (h : act.Twin a ps) :
    Act.Twin a ps (ExceptT.run (liftM act : Attempt α)) := by
  show Act.Twin a ps (Except.ok <$> act)
  rw [map_eq_pure_bind]
  exact h.bind fun _ => twin_pure _

theorem twin_attempt_session {α : Type} {f : Session → Attempt α}
    (h : ∀ s s' : Session, Sees a ps s.desk.disk s'.desk.disk → f s' = f s ∧ Act.Twin a ps (f s).run) :
    Act.Twin a ps (getThe Session >>= f : Attempt α).run :=
  twin_get_bind (f := fun s : Session => (f s).run) fun s s' hs => (h s s' hs).imp_left (congrArg ExceptT.run)

/-- The output job uses the source, its copy and its target. -/
theorem twin_output {context : Context} {input : Option Payload} (hr : r ∈ ps) (hsource : context.source = r.text)
    (ht : t ∈ ps) (htarget : context.target = t.text)
    (hcopy : ∀ p, backupPath r.text (context.config.textOf? .backupRoot) = .ok p → p ∈ ps) :
    (output.run context input).Twin a ps := by
  -- each part of the job, from the copy to the writing, uses these three paths only
  have hbackUp : (backUp context input).Twin a ps := by
    unfold backUp
    split
    · rw [hsource]
      exact Work.twin_keepBackup hr hcopy _
    · exact twin_pure _
  have hwrite : ∀ content, (writeSource context.target content (retriesOf context.config)).Twin a ps := by
    rw [htarget]
    exact fun content => Work.twin_writeSource ht content _
  have htargets : ∀ input, (writeTarget context input).Twin a ps := by
    intro input
    unfold writeTarget
    split
    · exact hwrite _
    · exact (hwrite _).bindExcept fun _ => twin_pure _
  have hstep : ∀ name input, ((writeStep name).execute context input).Twin a ps := by
    intro name input
    show Work.Twin a ps (if _ then _ else if _ then _ else _)
    split
    · exact twin_pure _
    · split
      · exact twin_pure _
      · refine Twin.rescue ((htargets input).bindExcept fun _ => twin_pure _) fun f => ?_
        split
        · exact twin_pure _
        · exact twin_pure _
  have hjob : (outputJob.run context input).Twin a ps := by
    refine Job.twin_run (Task.twin_run fun s hs => ?_)
    rw [List.mem_singleton.mp hs]
    exact hstep _
  refine (Act.twin_work hbackUp).bind fun answer => ?_
  cases answer with
  | error m => exact (Act.twin_log _ _).bind fun _ => twin_pure _
  | ok backup =>
    refine hjob.bind fun r => (still_logFailure _ _ r).bind_twin fun _ _ => ?_
    by_cases hlog : (!r.isError && context.config.isOn .dryRun) = true
    · rw [if_pos hlog]
      exact (Act.twin_log _ _).bind fun _ => twin_pure _
    · rw [if_neg hlog]
      exact twin_pure _

/-- The paths of a source: itself, its copy and its target. -/
def paths (c : Config) (s : String) : List FilePath := FilePath.ofString s :: outputs c s

theorem twin_migrateText {code : String} (hformat : c.isOn .format = true → tools.formatter.IgnoresDisk) :
    Act.Twin a (paths c source) (migrateText tools c runId source (FilePath.ofString source) code).run := by
  refine twin_attempt_ofExcept_bind fun context hcontext => ?_
  cases ht : c.targetPath source with
  | error m =>
    rw [Context.create, targetPath_text, ht] at hcontext
    cases hcontext
  | ok t =>
    rw [Context.create, targetPath_text, ht] at hcontext
    cases hcontext
    refine Twin.bindExcept (twin_attempt_lift ?_) fun r => ?_
    · have halike : ∀ d ∈ Set.univ, FormatsAlike tools.formatter c d ⟨[]⟩ := fun d _ hon => hformat hon d ⟨[]⟩
      refine (Act.twin_publish _).bind fun _ => Pipeline.twin_stage_still _ still_collect (fun p hp => ?_)
        fun _ _ p hp => ?_
      · obtain ⟨draft, -, rfl⟩ := hp
        exact clear_text _
      · obtain ⟨draft, -, rfl⟩ := hp
        refine Pipeline.twin_stage_still _ (still_format halike) (fun p hp => ?_) fun _ _ p hp => ?_
        · obtain ⟨new, -, rfl⟩ := hp
          exact clear_text _
        · refine Pipeline.twin_last_stage _ (twin_output List.mem_cons_self rfl
            (List.mem_cons_of_mem _ (List.mem_append_right _ (mem_targetsOf.mpr ht))) rfl fun p hp => ?_)
          exact List.mem_cons_of_mem _ (List.mem_append_left _ (copies_text _ source ▸ mem_copies.mpr hp))
    · refine Twin.bindExcept (twin_attempt_lift ?_) fun _ => twin_pure _
      exact (still_logOutcome r).bind_twin (f := pure) fun _ _ => twin_pure _

/-- A file that is migrated comes to the same on two disks on which its paths see the same. -/
theorem twin_migrateFile (hformat : c.isOn .format = true → tools.formatter.IgnoresDisk) :
    Act.Twin a (paths c source) (migrateFile tools c runId source).run := by
  rw [migrateFile]
  refine twin_attempt_session fun s s' hs => ?_
  have hsource : FilePath.ofString source ∈ paths c source := List.mem_cons_self
  have hvalid : validateSource s'.desk.disk source = validateSource s.desk.disk source := by
    rw [validateSource, validateSource, hs.find hsource]
  dsimp only
  rw [hvalid]
  cases hpath : validateSource s.desk.disk source with
  | error f =>
    cases f <;>
    · dsimp only
      exact ⟨rfl, twin_pure _⟩
  | ok path =>
    obtain rfl := eq_of_validateSource hpath
    dsimp only
    rw [hs.content? hsource]
    refine ⟨rfl, twin_attempt_ofExcept_bind fun large _ => ?_⟩
    split
    · exact twin_pure _
    · have hread : Act.Twin a (paths c source) (Act.work (readSource (FilePath.ofString source).text (retriesOf c))) :=
        Act.twin_work (Work.twin_readSource hsource _)
      refine Twin.bindExcept (twin_attempt_lift hread) fun answer => ?_
      cases answer with
      | error f => exact Twin.bindExcept (twin_attempt_lift (Act.twin_log _ _)) fun _ => twin_pure _
      | ok code => exact twin_migrateText hformat

end Twins

/-! ### Files that keep clear of each other -/

/-- What migrating a file comes to when nothing else is migrated and the system allows the same at every attempt. -/
def alone (tools : Tools) (c : Config) (runId : String) (a : Answers) (d : Disk) (s : String) :
    Except Failure (Result Payload) × Session :=
  Act.outcomeUnder (migrateFile tools c runId s).run (.steady a) d false

/-- The disk after a file was migrated alone. -/
def diskAlone (tools : Tools) (c : Config) (runId : String) (a : Answers) (d : Disk) (s : String) : Disk :=
  (alone tools c runId a d s).2.desk.disk

/-- The paths of every source go down from directories that are there, and no path of a source is one of another source or
lies above it. -/
structure KeptClear (c : Config) (d : Disk) (sources : List String) : Prop where
  tree : d.IsTree
  descends : ∀ s ∈ sources, ∀ p ∈ paths c s, d.Descends p
  apart : ∀ s ∈ sources, ∀ s' ∈ sources, s ≠ s' → ∀ p ∈ paths c s, ∀ p' ∈ paths c s',
    ¬ Place.ofPath p <+: Place.ofPath p'

/-- The disk has changed as each of the sources changes it alone, and nowhere else. -/
structure Merged (tools : Tools) (c : Config) (runId : String) (a : Answers) (d : Disk) (ss : List String) (d' : Disk) :
    Prop where
  tree : d'.IsTree
  changed : ∀ s ∈ ss, ∀ q, (diskAlone tools c runId a d s).at? q ≠ d.at? q →
    d'.at? q = (diskAlone tools c runId a d s).at? q
  kept : ∀ q, (∀ s ∈ ss, (diskAlone tools c runId a d s).at? q = d.at? q) → d'.at? q = d.at? q

section Order

variable {tools : Tools} {c : Config} {runId s : String} {a : Answers} {d d₁ d₂ : Disk} {sources done : List String}

theorem Merged.nil (h : d.IsTree) : Merged tools c runId a d [] d :=
  ⟨h, fun _ hs => absurd hs List.not_mem_nil, fun _ _ => rfl⟩

theorem Merged.of_mem {ss : List String} (h : Merged tools c runId a d ss d₁) (hmem : ∀ s, s ∈ ss ↔ s ∈ sources) :
    Merged tools c runId a d sources d₁ :=
  ⟨h.tree, fun s hs => h.changed s ((hmem s).mpr hs), fun q hq => h.kept q fun s hs => hq s ((hmem s).mp hs)⟩

/-- What has changed in the same way is the same. -/
theorem Merged.unique (h : Merged tools c runId a d sources d₁) (h' : Merged tools c runId a d sources d₂) (q : Place) :
    d₂.at? q = d₁.at? q := by
  by_cases hkept : ∀ s ∈ sources, (diskAlone tools c runId a d s).at? q = d.at? q
  · rw [h.kept q hkept, h'.kept q hkept]
  · push Not at hkept
    obtain ⟨s, hs, hne⟩ := hkept
    rw [h.changed s hs q hne, h'.changed s hs q hne]

theorem writes_alone (tools : Tools) (c : Config) (runId : String) (a : Answers) (d : Disk) (s : String) :
    Writes (outputs c s) d (diskAlone tools c runId a d s) := by
  have hrun : Act.Runs (.steady a) (migrateFile tools c runId s).run d (FileEnd tools c s d) := runs_fileEnd
  exact (hrun.outcomeUnder false).writes

/-- What a source changes alone is one of its outputs, or a directory that is made on the way to one. -/
theorem alone_changed (h : KeptClear c d sources) (hs : s ∈ sources) {q : Place}
    (hq : (diskAlone tools c runId a d s).at? q ≠ d.at? q) :
    (diskAlone tools c runId a d s).at? q ≠ none ∧ ∃ p ∈ outputs c s, q <+: Place.ofPath p ∧
      (q = Place.ofPath p ∨ d.at? q = none ∧ (diskAlone tools c runId a d s).at? q = some .directory) := by
  rcases writes_alone tools c runId a d s q with heq | ⟨hmem, -, b, hb⟩ | ⟨hmem, hnone, hdir⟩
  · exact absurd heq hq
  · obtain ⟨p, hp, rfl⟩ := List.mem_map.mp hmem
    exact ⟨by rw [hb]; exact nofun, p, hp, List.prefix_rfl, .inl rfl⟩
  · obtain ⟨p, hp, hreach⟩ := List.mem_flatMap.mp hmem
    obtain ⟨base, names, hlane⟩ := h.descends s hs p (List.mem_cons_of_mem _ hp)
    refine ⟨by rw [hdir]; exact nofun, p, hp, ?_, .inr ⟨hnone, hdir⟩⟩
    exact hlane.prefix_of_mem_reach h.tree (p.reach_parent_subset hreach) hnone

/-- The system allows the directories that a source makes alone. -/
theorem alone_allowed (h : KeptClear c d sources) (hformat : c.isOn .format = true → tools.formatter.IgnoresDisk)
    (hs : s ∈ sources) {q : Place} (hnone : d.at? q = none)
    (hdir : (diskAlone tools c runId a d s).at? q = some .directory) : a.obstacle? (.makeDirectory q) = none := by
  have hsees : Sees a (paths c s) d d :=
    ⟨h.tree, h.tree, fun _ hq => hq, h.descends s hs, fun _ _ _ _ => .inl rfl⟩
  have htwin : Act.Twin a (paths c s) (migrateFile tools c runId s).run := twin_migrateFile hformat
  obtain ⟨answer, t, t', hrun, -, -, hboth⟩ :=
    htwin ⟨.start (.steady a) d, [], false⟩ ⟨.start (.steady a) d, [], false⟩ ⟨rfl, rfl⟩ hsees
  rw [diskAlone, show alone tools c runId a d s = (answer, t) from hrun] at hdir
  refine (hboth.allowed q hdir).resolve_left fun hthere => ?_
  rw [show (⟨.start (.steady a) d, [], false⟩ : Session).desk.disk = d from rfl, hnone] at hthere
  cases hthere

/-- After other sources were migrated a source sees what it sees alone. -/
theorem Merged.sees (h : Merged tools c runId a d done d₁) (hclear : KeptClear c d sources)
    (hformat : c.isOn .format = true → tools.formatter.IgnoresDisk) (hdone : done ⊆ sources) (hs : s ∈ sources)
    (hnew : s ∉ done) : Sees a (paths c s) d d₁ := by
  refine ⟨hclear.tree, h.tree, fun q hq => ?_, hclear.descends s hs, fun p hp q hq => ?_⟩
  · rw [h.kept q fun s' _ => ?_, hq]
    rw [hq]
    exact (writes_alone tools c runId a d s').directory hq
  · by_cases hkept : ∀ s' ∈ done, (diskAlone tools c runId a d s').at? q = d.at? q
    · exact .inl (h.kept q hkept)
    · push Not at hkept
      obtain ⟨s', hs', hne⟩ := hkept
      have hother : s ≠ s' := fun heq => hnew (heq ▸ hs')
      obtain ⟨-, p', hp', hbelow, hcase⟩ := alone_changed hclear (hdone hs') hne
      have hp' : p' ∈ paths c s' := List.mem_cons_of_mem _ hp'
      rcases hcase with rfl | ⟨hnone, hdir⟩
      · exact absurd hq (hclear.apart s' (hdone hs') s hs hother.symm p' hp' p hp)
      · refine .inr ⟨?_, hnone, (h.changed s' hs' q hne).trans hdir, alone_allowed hclear hformat (hdone hs') hnone hdir⟩
        rintro rfl
        exact hclear.apart s hs s' (hdone hs') hother p hp p' hp' hbelow

/-- One more source comes to what it comes to alone, and changes what it changes alone. -/
theorem Merged.step (h : Merged tools c runId a d done d₁) (hclear : KeptClear c d sources)
    (hformat : c.isOn .format = true → tools.formatter.IgnoresDisk) (hdone : done ⊆ sources) (hs : s ∈ sources)
    (hnew : s ∉ done) : Act.Runs (.steady a) (migrateFile tools c runId s).run d₁ fun answer d₂ =>
      answer = (alone tools c runId a d s).1 ∧ Merged tools c runId a d (done ++ [s]) d₂ := by
  rintro session rfl hsystem
  have htwin : Act.Twin a (paths c s) (migrateFile tools c runId s).run := twin_migrateFile hformat
  -- the run is that of the source alone, step by step, on a disk that looks the same from its paths
  obtain ⟨answer, t, t', hrun, hrun', hfair, hboth⟩ := htwin ⟨.start (.steady a) d, [], false⟩ session ⟨rfl, hsystem⟩
    (h.sees hclear hformat hdone hs hnew)
  have halone : alone tools c runId a d s = (answer, t) := hrun
  have hend := (runs_fileEnd : Act.Runs (.steady a) (migrateFile tools c runId s).run _ _) session rfl hsystem
  rw [hrun'] at hend ⊢
  have hwrites : Writes (outputs c s) session.desk.disk t'.desk.disk := hend.1.writes
  refine ⟨⟨by rw [halone], hboth.tree', fun s' hs' q hne => ?_, fun q hkept => ?_⟩, hfair.right⟩
  · rcases List.mem_append.mp hs' with hs' | hs'
    · -- what others have changed stays
      rw [← h.changed s' hs' q hne]
      obtain ⟨hsome, p', hp', hbelow, -⟩ := alone_changed hclear (hdone hs') hne
      rcases hwrites q with heq | ⟨hmem, -⟩ | ⟨-, hnone, -⟩
      · exact heq
      · obtain ⟨p, hp, rfl⟩ := List.mem_map.mp hmem
        have hother : s ≠ s' := fun heq => hnew (heq ▸ hs')
        exact absurd hbelow (hclear.apart s hs s' (hdone hs') hother p (List.mem_cons_of_mem _ hp) p'
          (List.mem_cons_of_mem _ hp'))
      · rw [h.changed s' hs' q hne] at hnone
        exact absurd hnone hsome
    · obtain rfl := List.mem_singleton.mp hs'
      rw [diskAlone, halone] at hne ⊢
      exact (hboth.alike q).resolve_right fun hsame => hne hsame.1
  · -- what nobody changes is as it was before the first source
    have hs' := hkept s (List.mem_append_right _ (List.mem_singleton_self s))
    rw [diskAlone, halone] at hs'
    rcases hboth.alike q with heq | ⟨-, heq⟩
    · exact heq.trans hs'
    · exact heq.trans (h.kept q fun s' hs' => hkept s' (List.mem_append_left _ hs'))

/-! ### Lists of files -/

/-- Files have come to what each of them comes to alone. -/
structure AllAlone (tools : Tools) (c : Config) (runId : String) (a : Answers) (d : Disk) (sources : List String)
    (done : Worked) (d' : Disk) : Prop where
  known : done.map (·.1) ⊆ sources
  answers : ∀ e ∈ done, e.2 = (alone tools c runId a d e.1).1
  merged : Merged tools c runId a d (done.map (·.1)) d'

theorem AllAlone.preserved (hclear : KeptClear c d sources)
    (hformat : c.isOn .format = true → tools.formatter.IgnoresDisk) :
    Preserves (.steady a) (migrateFile tools c runId) sources (AllAlone tools c runId a d sources) := by
  intro done d₁ s h hs hnew
  refine (h.merged.step hclear hformat h.known hs hnew).mono fun answer d₂ hstep => ?_
  obtain ⟨hanswer, hmerged⟩ := hstep
  have hnames : (done ++ [(s, answer)]).map (·.1) = done.map (·.1) ++ [s] := List.map_append
  refine ⟨?_, fun e he => ?_, hnames ▸ hmerged⟩
  · rw [hnames]
    exact List.append_subset.mpr ⟨h.known, fun s' hs' => List.mem_singleton.mp hs' ▸ hs⟩
  · rcases List.mem_append.mp he with he | he
    · exact h.answers e he
    · rw [List.mem_singleton.mp he]
      exact hanswer

/-- What a list of files came to: every source is there once, with what it comes to alone, the result sums that up in the
order of the sources, and the disk has changed as each of them changes it alone. -/
structure AsAlone (tools : Tools) (c : Config) (runId : String) (a : Answers) (d : Disk) (sources : List String)
    (b : Batch) (after : Disk) : Prop where
  keys : (b.files.map (·.1)).Perm sources.eraseDups
  results : ∀ e ∈ b.files, (alone tools c runId a d e.1).1 = .ok e.2
  result : sources ≠ [] → b.result = summary (inOrderOf sources.eraseDups b.files)
  merged : Merged tools c runId a d sources after

/-- The results of the sources are the same, whatever order they came in. -/
theorem AsAlone.inOrderOf_eq {b b' : Batch} (h : AsAlone tools c runId a d sources b d₁)
    (h' : AsAlone tools c runId a d sources b' d₂) :
    inOrderOf sources.eraseDups b'.files = inOrderOf sources.eraseDups b.files := by
  refine List.filterMap_congr fun s hs => ?_
  obtain ⟨r, hlookup, hmem⟩ := lookup_of_mem (h.keys.mem_iff.mpr hs)
  obtain ⟨r', hlookup', hmem'⟩ := lookup_of_mem (h'.keys.mem_iff.mpr hs)
  have hsame : r' = r := Except.ok.inj ((h'.results _ hmem').symm.trans (h.results _ hmem))
  rw [hlookup, hlookup', hsame]

/-- What comes to the same as alone is the same. -/
theorem AsAlone.same {b b' : Batch} (h : AsAlone tools c runId a d sources b d₁)
    (h' : AsAlone tools c runId a d sources b' d₂) :
    (sources ≠ [] → b'.result = b.result) ∧ b'.files.Perm b.files ∧ ∀ q, d₂.at? q = d₁.at? q := by
  refine ⟨fun hsome => ?_, ?_, h.merged.unique h'.merged⟩
  · rw [h.result hsome, h'.result hsome, h.inOrderOf_eq h']
  · have hperm := inOrderOf_perm h.keys (nodup_eraseDups sources)
    have hperm' := inOrderOf_perm h'.keys (nodup_eraseDups sources)
    rw [h.inOrderOf_eq h'] at hperm'
    exact hperm'.symm.trans hperm

/-- A list that nothing stops comes to what its files come to alone, with the results in the order in which it looks at
them. -/
theorem AsAlone.of_cameTo {answer : Except Failure Batch} {order : List String} {n : Bool}
    (horder : order.Perm sources.eraseDups) (hon : c.isOn .continueOnError = true) (hnumber : c.isConcurrent = .ok n)
    (halone : ∀ s ∈ sources, ∃ r, (alone tools c runId a d s).1 = .ok r)
    (h : CameTo c sources.eraseDups order (AllAlone tools c runId a d sources) answer d₁) :
    ∃ b, answer = .ok b ∧ AsAlone tools c runId a d sources b d₁ ∧ b.files.map (·.1) = order := by
  obtain ⟨done, hdone, -, hsub, hends⟩ := h
  have hmem : ∀ rs : List (String × Result Payload), Seen rs done → rs.map (·.1) = order →
      ∀ s, s ∈ done.map (·.1) ↔ s ∈ sources := by
    refine fun rs hseen hnames s => ⟨fun hs => List.mem_eraseDups.mp (hsub hs), fun hs => ?_⟩
    rw [← List.mem_eraseDups, ← horder.mem_iff, ← hnames] at hs
    obtain ⟨e, he, rfl⟩ := List.mem_map.mp hs
    exact List.mem_map_of_mem (hseen e he)
  cases hends with
  | empty hnone =>
    have hsources : sources = [] := List.eq_nil_iff_forall_not_mem.mpr fun s hs => by
      rw [← List.mem_eraseDups, hnone] at hs
      exact absurd hs List.not_mem_nil
    rw [hnone] at horder
    obtain rfl := horder.eq_nil
    refine ⟨_, rfl, ⟨by rw [hnone]; exact List.Perm.refl _, fun _ he => absurd he List.not_mem_nil,
      fun hsome => absurd hsources hsome, hdone.merged.of_mem (hmem [] (fun _ he => absurd he List.not_mem_nil) rfl)⟩, rfl⟩
  | undecided hunclear =>
    rw [hnumber] at hunclear
    cases hunclear
  | thrown hworked =>
    obtain ⟨r, hr⟩ := halone _ (hdone.known (List.mem_map_of_mem hworked))
    cases (hdone.answers _ hworked).trans hr
  | broken hoff =>
    rw [hon] at hoff
    cases hoff
  | finished hseen hnames =>
    exact ⟨_, rfl, ⟨hnames ▸ horder, fun e he => (hdone.answers _ (hseen e he)).symm, fun _ => rfl,
      hdone.merged.of_mem (hmem _ hseen hnames)⟩, hnames⟩

/-- The ways to go through a list of files: as the configuration says, one after the other, or in the turns of a pool. -/
inductive Way (tools : Tools) (c : Config) (runId : String) (sources : List String) : Attempt Batch → Prop
  | configured : Way tools c runId sources (migrateFiles tools c runId sources)
  | inOrder : Way tools c runId sources
      (migrateInOrder (migrateFile tools c runId) (c.isOn .continueOnError) [] sources.eraseDups)
  | atOnce (pool : Pool) : Way tools c runId sources
      (pool.migrate (migrateFile tools c runId) (c.isOn .continueOnError) sources.eraseDups)

/-- Every way to go through files that keep clear of each other comes to what they come to alone. -/
theorem runs_way {batch : Attempt Batch} {n : Bool} (h : Way tools c runId sources batch) (hclear : KeptClear c d sources)
    (hon : c.isOn .continueOnError = true) (hnumber : c.isConcurrent = .ok n)
    (hformat : c.isOn .format = true → tools.formatter.IgnoresDisk)
    (halone : ∀ s ∈ sources, ∃ r, (alone tools c runId a d s).1 = .ok r) :
    Act.Runs (.steady a) batch.run d fun answer d' =>
      ∃ b, answer = .ok b ∧ AsAlone tools c runId a d sources b d' := by
  have hstart : AllAlone tools c runId a d sources [] d :=
    ⟨List.nil_subset _, fun _ he => absurd he List.not_mem_nil, Merged.nil hclear.tree⟩
  have hstep : Preserves (.steady a) (migrateFile tools c runId) sources (AllAlone tools c runId a d sources) :=
    AllAlone.preserved hclear hformat
  have hstep' : Preserves (.steady a) (migrateFile tools c runId) sources.eraseDups
      (AllAlone tools c runId a d sources) := fun done d₁ s h hs => hstep done d₁ s h (List.mem_eraseDups.mp hs)
  have hend : ∀ {answer d' order}, order.Perm sources.eraseDups →
      CameTo c sources.eraseDups order (AllAlone tools c runId a d sources) answer d' →
      ∃ b, answer = .ok b ∧ AsAlone tools c runId a d sources b d' := fun horder h => by
    obtain ⟨b, hb, hsame, -⟩ := AsAlone.of_cameTo horder hon hnumber halone h
    exact ⟨b, hb, hsame⟩
  have hnodup := nodup_eraseDups sources
  cases h with
  | configured =>
    refine (runs_migrateListed hstep hstart).mono fun answer d' h => ?_
    obtain ⟨order, horder, h⟩ := h
    exact hend horder h
  | inOrder => exact (runs_inOrder hstep' hstart hnodup).mono fun answer d' h => hend (List.Perm.refl _) h
  | atOnce pool =>
    exact (runs_pool pool hstep' hstart hnodup).mono fun answer d' h => hend (pool.schedule _).looked h

end Order

/-! ### Two files and their copies -/

theorem isNormal_of_mem_paths {c : Config} {s : String} {p : FilePath} (h : p ∈ paths c s) : p.IsNormal := by
  rcases List.mem_cons.mp h with rfl | h
  · exact FilePath.isNormal_ofString s
  · rcases List.mem_append.mp h with h | h
    · exact (backupPath_ok (mem_copies.mp h)).1
    · exact isNormal_targetPath (mem_targetsOf.mp h)

/-- A pool that goes through files in the opposite order. -/
def Pool.backwards : Pool where
  turns files := oneByOne files.reverse
  schedule files :=
    have h := isSchedule_oneByOne files.reverse
    ⟨h.worked.trans files.reverse_perm, h.looked.trans files.reverse_perm, h.after⟩
  begun _ := false

/-- The default configuration, with a directory for copies, going on when a file fails. -/
def copyingConfig (root : String) : Config :=
  { Config.standard with
    value := fun s => match s with
      | .backupRoot => .text root
      | .continueOnError => .bool true
      | s => Setting.standard s }

/-- A configuration with two files at once. -/
def twoAtOnce (c : Config) : Config :=
  { c with value := fun s => if s = .concurrency then .int 2 else c.value s }

/-- Two sources that will change, and what may be an old copy of the second one. -/
def copyDisk : Disk :=
  ⟨[(["a.py"], .file "\ufeffx = 1\n".toUTF8), (["b.py"], .file "\ufeffx = 2\n".toUTF8),
    (["b.py.backup"], .file "precious\n".toUTF8)]⟩

/-- The sources of `copyDisk`. -/
def copied : List String := ["a.py", "b.py"]

/-- What a result says about the copy of its source. -/
def copyNote (r : Result Payload) : Option String := (r.metadata.get? "backup_file").bind Value.text?

/-- What becomes of the copy of the second source of `copyDisk` with others and alone, as the results say and on the disk. -/
def copyRun (c : Config) : Option ((List (String × Option String) × Option Entry) × Option String × Option Entry) :=
  let all := Act.outcome (migrateFiles .standard c "run" copied).run copyDisk false
  let one := alone .standard c "run" .granting copyDisk "b.py"
  match all.1, one.1 with
  | .ok b, .ok r =>
    some ((b.files.map fun e => (e.1, copyNote e.2), all.2.desk.disk.at? ["b.py.backup"]), copyNote r,
      one.2.desk.disk.at? ["b.py.backup"])
  | _, _ => none

end FluentShift.Migration
