import FluentShift.Proofs.Migration.Batch

/-!
# FluentShift.Proofs.Migration.Targets - the targets of a list of files

Every migrated file of a list has a target of its own, which holds what the text of that file becomes
(`migrateFiles_separated`), as long as what is written for one file leaves the others and their targets alone
(`Undisturbed`).  Nothing sees to that: two sources of one name have one target when all targets go into one directory
(`lostTarget_namesakes`).
-/

namespace FluentShift.Migration

open FluentShift.Files FluentShift.Engine FluentShift.Types

theorem decode_toUTF8 (s : String) : Text.Utf8.decode s.toUTF8 = .ok s := by
  have hread : String.fromUTF8? s.toUTF8 = some s := by
    rw [String.fromUTF8?]
    split
    · rfl
    · exact absurd s.isValidUTF8 (by assumption)
  rw [Text.Utf8.decode, hread]

/-! ### Results and their targets -/

section Results

variable {r : Result Payload} {rs : List (String × Result Payload)}

theorem isOk_eq (r : Result Payload) : r.isOk = (!r.isError && !r.isSkipped) := by
  unfold Result.isOk Result.isError Result.isSkipped
  cases r.status <;> rfl

theorem targets_eq (rs : List (String × Result Payload)) :
    targets rs = (rs.filter fun r => r.2.isOk).map fun r => dataText r.2 := by
  unfold targets
  simp only [isOk_eq]

theorem targets_concat (rs : List (String × Result Payload)) (e : String × Result Payload) :
    targets (rs ++ [e]) = targets rs ++ if e.2.isOk then [dataText e.2] else [] := by
  rw [targets_eq, targets_eq, List.filter_append, List.map_append]
  cases hok : e.2.isOk <;> simp [hok]

theorem summary_data (rs : List (String × Result Payload)) : (summary rs).data = some (targets rs) := by
  unfold summary
  split <;> rfl

theorem dataText_of_told {t : FilePath} {new : String} {fate : Fate} (h : Says t new r fate) (hok : r.isOk = true) :
    dataText r = t.text := by
  have hdata : r.data = some (textPayload t.text) := by
    cases fate with
    | failed =>
      rw [isOk_of_isError h] at hok
      cases hok
    | planned | same | written => exact h.2.1
  rw [dataText, hdata]
  rfl

/-- The texts that were not written, result by result. -/
theorem generatedCode_concat (rs : List (String × Result Payload)) (e : String × Result Payload) :
    generatedCode (rs ++ [e]) =
      match e.2.metadata.get? "generated_code" with
      | some code => if code.same .null || e.2.data.isNone then generatedCode rs
          else (generatedCode rs).put (dataText e.2) code
      | none => generatedCode rs := by
  unfold generatedCode
  exact List.foldl_append

/-- Every migrated file of a dry run has a text under its target, when the targets differ. -/
theorem generatedCode_spec (hnone : ∀ e ∈ rs, e.2.isOk = false → e.2.data = none)
    (hplanned : ∀ e ∈ rs, e.2.isOk = true → ∃ new, e.2.metadata.get? "generated_code" = some (.text new) ∧
      e.2.data.isSome = true) (hnodup : (targets rs).Nodup) :
    (generatedCode rs).map (·.1) = targets rs ∧ ∀ e ∈ rs, e.2.isOk = true →
      (generatedCode rs).get? (dataText e.2) = e.2.metadata.get? "generated_code" := by
  induction rs using List.reverseRecOn with
  | nil => exact ⟨rfl, fun _ h => absurd h List.not_mem_nil⟩
  | append_singleton rs e ih =>
    have hlast : e ∈ rs ++ [e] := List.mem_append_right _ (List.mem_singleton_self e)
    have ih := fun hnodup => ih (fun e he => hnone e (List.mem_append_left _ he))
      (fun e he => hplanned e (List.mem_append_left _ he)) hnodup
    rw [targets_concat] at hnodup ⊢
    obtain ⟨hkeys, htexts⟩ := ih (List.nodup_append.mp hnodup).1
    cases hok : e.2.isOk with
    -- a failed result names no target and stores nothing
    | false =>
      have hsame : generatedCode (rs ++ [e]) = generatedCode rs := by
        rw [generatedCode_concat, hnone e hlast hok]
        cases e.2.metadata.get? "generated_code" with
        | none => rfl
        | some code => exact if_pos (by simp)
      rw [hsame, if_neg Bool.false_ne_true, List.append_nil]
      refine ⟨hkeys, fun e' he' hok' => ?_⟩
      rcases List.mem_append.mp he' with he' | he'
      · exact htexts e' he' hok'
      · rw [List.mem_singleton.mp he', hok] at hok'
        cases hok'
    | true =>
      rw [hok, if_pos rfl] at hnodup
      rw [if_pos rfl]
      obtain ⟨new, hnew, hdata⟩ := hplanned e hlast hok
      -- no earlier result has this target, so storing under it overwrites nothing
      have hfresh : dataText e.2 ∉ (generatedCode rs).map (·.1) := fun hmem =>
        (List.nodup_append.mp hnodup).2.2 _ (hkeys ▸ hmem) _ (List.mem_singleton_self _) rfl
      have hput : generatedCode (rs ++ [e]) = (generatedCode rs).put (dataText e.2) (.text new) := by
        rw [generatedCode_concat, hnew]
        refine if_neg ?_
        rw [Bool.or_eq_true, not_or]
        refine ⟨Bool.false_ne_true, ?_⟩
        rw [Option.isNone_iff_eq_none]
        rintro hnone
        rw [hnone] at hdata
        cases hdata
      refine ⟨?_, fun e' he' hok' => ?_⟩
      · rw [hput, Metadata.put_of_notMem hfresh, List.map_append, hkeys]
        rfl
      · rw [hput, Metadata.get?_put]
        rcases List.mem_append.mp he' with he' | he'
        · rw [if_neg, htexts e' he' hok']
          intro heq
          refine hfresh (heq ▸ hkeys ▸ ?_)
          rw [targets_eq]
          exact List.mem_map_of_mem (List.mem_filter.mpr ⟨he', hok'⟩)
        · rw [List.mem_singleton.mp he', if_pos rfl, hnew]

end Results

/-! ### Files that leave each other alone -/

/-- What is written for a source is neither another source nor the target of that. -/
structure Undisturbed (c : Config) (s s' : String) : Prop where
  source : ∀ q ∈ outputs c s', Place.ofPath q ≠ Place.named s
  target : ∀ q ∈ outputs c s', ∀ t ∈ targetsOf c s, Place.ofPath q ≠ Place.ofPath t

instance (c : Config) (s s' : String) : Decidable (Undisturbed c s s') :=
  decidable_of_iff ((∀ q ∈ outputs c s', Place.ofPath q ≠ Place.named s) ∧
    ∀ q ∈ outputs c s', ∀ t ∈ targetsOf c s, Place.ofPath q ≠ Place.ofPath t)
    ⟨fun h => ⟨h.1, h.2⟩, fun h => ⟨h.source, h.target⟩⟩

/-- A source is migrated to its target: the target holds what the text of the source has become, or would hold it.  The text
is formatted with what lies on the disk when the source has its turn, which is what lay there before and what was written
for other sources; that may make no difference. -/
structure MigratedTo (tools : Tools) (c : Config) (sources : List String) (before after : Disk) (s : String)
    (r : Result Payload) (t : FilePath) (new : String) : Prop where
  target : c.targetPath s = .ok t
  data : dataText r = t.text
  text : ∃ bytes code on, before.at? (Place.named s) = some (.file bytes) ∧ Text.Utf8.decode bytes = .ok code ∧
    Writes ((sources.filter (· ≠ s)).flatMap (outputs c)) before on ∧ newText tools on c code = .ok new ∧
    ((c.isOn .format = true → tools.formatter.IgnoresDisk) → newText tools before c code = .ok new)
  written : c.isOn .dryRun = false → ∃ b, after.at? (Place.ofPath t) = some (.file b) ∧ Text.Utf8.decode b = .ok new

section Files

variable {tools : Tools} {c : Config} {runId s : String} {t : FilePath} {new : String} {r : Result Payload}
  {rs : List (String × Result Payload)} {sources : List String} {done : Worked} {system : System}
  {before d d' : Disk}

/-- What the end of a file comes to after others were written, on a disk on which the source is as it was before. -/
theorem FileEnd.migratedTo (h : FileEnd tools c s d (.ok r) d') (hok : r.isOk = true)
    (hwrites : Writes ((sources.filter (· ≠ s)).flatMap (outputs c)) before d)
    (hback : ∀ b, d.at? (Place.named s) = some (.file b) → before.at? (Place.named s) = some (.file b)) :
    ∃ t new, MigratedTo tools c sources before d' s r t new ∧
      (c.isOn .dryRun = true → r.metadata.get? "generated_code" = some (.text new) ∧ r.data.isSome = true) := by
  cases h with
  | stopped hstopped =>
    rw [(hstopped r rfl).1] at hok
    cases hok
  | @ended bytes code new t _ fate _ hcontent hcode htarget htext hended htold =>
    have hat := Disk.at?_of_content? hcontent
    rw [named_text_ofString] at hat
    have hbefore : (c.isOn .format = true → tools.formatter.IgnoresDisk) → newText tools before c code = .ok new :=
      fun hignores => (newText_congr (fun hon => hignores hon before d) code).trans htext
    refine ⟨t, new, ⟨htarget, dataText_of_told htold hok,
      ⟨bytes, code, d, hback _ hat, hcode, hwrites, htext, hbefore⟩, fun hdry => ?_⟩, fun hdry => ?_⟩
    · cases hended with
      | planned hon =>
        rw [hdry] at hon
        cases hon
      | uncopied | refused =>
        rw [isOk_of_isError htold] at hok
        cases hok
      | same _ hplace hsame =>
        rw [named_text_ofString] at hplace
        exact ⟨bytes, hplace ▸ hat, hsame ▸ hcode⟩
      | written _ _ _ _ hwritten =>
        have hwritten := Disk.at?_of_content? hwritten
        rw [Place.named_text (isNormal_targetPath htarget)] at hwritten
        exact ⟨_, hwritten, decode_toUTF8 new⟩
    · cases hended with
      | planned => exact ⟨htold.2.2, by rw [htold.2.1]; rfl⟩
      | uncopied | refused =>
        rw [isOk_of_isError htold] at hok
        cases hok
      | same hoff | written hoff =>
        rw [hdry] at hoff
        cases hoff

theorem FileEnd.data_none (h : FileEnd tools c s d (.ok r) d') (hok : r.isOk = false) : r.data = none := by
  cases h with
  | stopped hstopped => exact (hstopped r rfl).2
  | @ended _ _ _ _ _ fate _ _ _ _ _ _ htold =>
    cases fate with
    | failed => exact data_of_isError htold
    | planned | same | written =>
      have hok' : r.isOk = true := htold.1
      rw [hok] at hok'
      cases hok'

/-- How far a list of files has come: what was written, and which sources are migrated. -/
structure Progress (tools : Tools) (c : Config) (sources : List String) (before : Disk) (done : Worked) (d : Disk) :
    Prop where
  known : done.map (·.1) ⊆ sources
  writes : Writes ((done.map (·.1)).flatMap (outputs c)) before d
  migrated : ∀ s r, (s, .ok r) ∈ done → r.isOk = true → ∃ t new, MigratedTo tools c sources before d s r t new ∧
    (c.isOn .dryRun = true → r.metadata.get? "generated_code" = some (.text new) ∧ r.data.isSome = true)
  dataless : ∀ s r, (s, .ok r) ∈ done → r.isOk = false → r.data = none

theorem Progress.nil (tools : Tools) (c : Config) (sources : List String) (d : Disk) : Progress tools c sources d [] d :=
  ⟨List.nil_subset _, Writes.refl _ _, fun _ _ h => absurd h List.not_mem_nil, fun _ _ h => absurd h List.not_mem_nil⟩

/-- Writing elsewhere makes no files. -/
theorem Writes.file_back {ps : List FilePath} (h : Writes ps d d') {p : Place} (hp : ∀ q ∈ ps, Place.ofPath q ≠ p)
    {b : ByteArray} (hb : d'.at? p = some (.file b)) : d.at? p = some (.file b) := by
  refine Disk.Grows.file_back h (fun hmem => ?_) hb
  obtain ⟨q, hq, heq⟩ := List.mem_map.mp hmem
  exact hp q hq heq

/-- One more file: it is as it was before, and the targets that are written stay as they are. -/
theorem Progress.step {answer : Except Failure (Result Payload)} (h : Progress tools c sources before done d)
    (hs : s ∈ sources) (hnew : s ∉ done.map (·.1)) (hend : FileEnd tools c s d answer d')
    (hapart : ∀ s ∈ sources, ∀ s' ∈ sources, s ≠ s' → Undisturbed c s s') :
    Progress tools c sources before (done ++ [(s, answer)]) d' := by
  have hnames : (done ++ [(s, answer)]).map (·.1) = done.map (·.1) ++ [s] := List.map_append
  have hothers : done.map (·.1) ⊆ sources.filter (· ≠ s) := fun s' hs' =>
    List.mem_filter.mpr ⟨h.known hs', decide_eq_true fun heq => hnew (heq ▸ hs')⟩
  have hwrites := hend.writes
  refine ⟨?_, ?_, fun s' r he hok => ?_, fun s' r he hok => ?_⟩
  · rw [hnames]
    exact List.append_subset.mpr ⟨h.known, fun s' hs' => List.mem_singleton.mp hs' ▸ hs⟩
  · rw [hnames, List.flatMap_append]
    exact h.writes.trans (hwrites.mono (by simp))
  · -- an earlier file is left alone by this one; this one is left alone by what was written before
    rcases List.mem_append.mp he with he | he
    · obtain ⟨t, new, hmigrated, hplanned⟩ := h.migrated s' r he hok
      obtain ⟨hs', hne⟩ := List.mem_filter.mp (hothers (List.mem_map_of_mem he))
      refine ⟨t, new, { hmigrated with written := fun hdry => ?_ }, hplanned⟩
      obtain ⟨b, hb, hcode⟩ := hmigrated.written hdry
      refine ⟨b, hwrites.file_same hb fun hmem => ?_, hcode⟩
      obtain ⟨q, hq, heq⟩ := List.mem_map.mp hmem
      exact (hapart s' hs' s hs (of_decide_eq_true hne)).target q hq t (mem_targetsOf.mpr hmigrated.target) heq
    · cases List.mem_singleton.mp he
      have hbefore : Writes ((sources.filter (· ≠ s)).flatMap (outputs c)) before d := h.writes.mono fun p hp => by
        obtain ⟨s', hs', hp⟩ := List.mem_flatMap.mp hp
        exact List.mem_flatMap.mpr ⟨s', hothers hs', hp⟩
      refine hend.migratedTo hok hbefore fun b hb => hbefore.file_back (fun q hq => ?_) hb
      obtain ⟨s', hs', hq⟩ := List.mem_flatMap.mp hq
      obtain ⟨hs', hne⟩ := List.mem_filter.mp hs'
      exact (hapart s hs s' hs' (Ne.symm (of_decide_eq_true hne))).source q hq
  · rcases List.mem_append.mp he with he | he
    · exact h.dataless s' r he hok
    · cases List.mem_singleton.mp he
      exact hend.data_none hok

/-! ### Lists of files -/

/-- What a batch has come to: every migrated file has a target of its own, which holds what the text of the file has become
or stands in the batch with it. -/
structure Separated (tools : Tools) (c : Config) (sources : List String) (before after : Disk) (b : Batch) : Prop where
  data : b.result.isOk = true → b.result.data = some (targets (inOrderOf sources.eraseDups b.files)) ∧
    (inOrderOf sources.eraseDups b.files).Perm b.files
  distinct : (targets b.files).Nodup
  migrated : ∀ e ∈ b.files, e.2.isOk = true → ∃ t new, MigratedTo tools c sources before after e.1 e.2 t new ∧
    (c.isOn .dryRun = true → (generatedCode b.files).get? t.text = some (.text new))
  planned : c.isOn .dryRun = true → (generatedCode b.files).map (·.1) = targets b.files

/-- The targets of different sources that leave each other alone differ. -/
theorem nodup_targets (hnodup : (rs.map (·.1)).Nodup)
    (hmigrated : ∀ e ∈ rs, e.2.isOk = true → ∃ t, c.targetPath e.1 = .ok t ∧ dataText e.2 = t.text)
    (hapart : ∀ e ∈ rs, ∀ e' ∈ rs, e.1 ≠ e'.1 → Undisturbed c e.1 e'.1) : (targets rs).Nodup := by
  rw [targets_eq, List.nodup_map_iff_inj_on (((List.Nodup.of_map _ hnodup)).filter _)]
  intro e he e' he' heq
  obtain ⟨he, hok⟩ := List.mem_filter.mp he
  obtain ⟨he', hok'⟩ := List.mem_filter.mp he'
  obtain ⟨t, ht, hdata⟩ := hmigrated e he hok
  obtain ⟨t', ht', hdata'⟩ := hmigrated e' he' hok'
  refine List.inj_on_of_nodup_map hnodup he he' ?_
  by_contra hne
  refine (hapart e he e' he' hne).target t' (List.mem_append_right _ (mem_targetsOf.mpr ht')) t (mem_targetsOf.mpr ht) ?_
  rw [← Place.named_text (isNormal_targetPath ht), ← Place.named_text (isNormal_targetPath ht'), ← hdata, ← hdata', heq]

/-- What has come of results of a list of files whose sources leave each other alone. -/
theorem Progress.separated {b : Batch} (h : Progress tools c sources before done d) (hseen : Seen b.files done)
    (hdata : b.result.isOk = true → b.result.data = some (targets (inOrderOf sources.eraseDups b.files)) ∧
      (inOrderOf sources.eraseDups b.files).Perm b.files)
    (hnodup : (b.files.map (·.1)).Nodup) (hapart : ∀ s ∈ sources, ∀ s' ∈ sources, s ≠ s' → Undisturbed c s s') :
    Separated tools c sources before d b := by
  have hsource : ∀ e ∈ b.files, e.1 ∈ sources := fun e he => h.known (List.mem_map_of_mem (hseen e he))
  have hdistinct : (targets b.files).Nodup := by
    refine nodup_targets hnodup (fun e he hok => ?_) fun e he e' he' => hapart e.1 (hsource e he) e'.1 (hsource e' he')
    obtain ⟨t, new, hmigrated, -⟩ := h.migrated e.1 e.2 (hseen e he) hok
    exact ⟨t, hmigrated.target, hmigrated.data⟩
  have hcode : c.isOn .dryRun = true → (generatedCode b.files).map (·.1) = targets b.files ∧ ∀ e ∈ b.files,
      e.2.isOk = true → (generatedCode b.files).get? (dataText e.2) = e.2.metadata.get? "generated_code" := by
    intro hdry
    refine generatedCode_spec (fun e he => h.dataless e.1 e.2 (hseen e he)) (fun e he hok => ?_) hdistinct
    obtain ⟨t, new, -, hplanned⟩ := h.migrated e.1 e.2 (hseen e he) hok
    exact ⟨new, hplanned hdry⟩
  refine ⟨hdata, hdistinct, fun e he hok => ?_, fun hdry => (hcode hdry).1⟩
  obtain ⟨t, new, hmigrated, hplanned⟩ := h.migrated e.1 e.2 (hseen e he) hok
  refine ⟨t, new, hmigrated, fun hdry => ?_⟩
  rw [← hmigrated.data, (hcode hdry).2 e he hok]
  exact (hplanned hdry).1

/-- Migrating a list of files whose sources leave each other alone. -/
theorem runs_migrateFiles (hapart : ∀ s ∈ sources, ∀ s' ∈ sources, s ≠ s' → Undisturbed c s s') :
    Act.Runs system (migrateFiles tools c runId sources).run d fun answer d' =>
      ∀ b, answer = .ok b → Separated tools c sources d d' b := by
  have hstep : Preserves system (migrateFile tools c runId) sources (Progress tools c sources d) := fun done d₁ s h hs hnew =>
    runs_fileEnd.mono fun answer d₂ hend => h.step hs hnew hend hapart
  refine (runs_migrateListed hstep (Progress.nil tools c sources d)).mono fun answer d' hend b hb => ?_
  obtain ⟨order, horder, done, hdone, -, -, hends⟩ := hend
  subst hb
  have hnodup : order.Nodup := horder.nodup_iff.mpr (nodup_eraseDups sources)
  cases hends with
  | empty hnone =>
    refine hdone.separated (fun _ he => absurd he List.not_mem_nil) (fun _ => ?_) List.nodup_nil hapart
    rw [hnone]
    exact ⟨rfl, List.Perm.refl _⟩
  | broken _ _ hseen hnames =>
    exact hdone.separated hseen (fun hok => by cases hok) (hnodup.sublist hnames.sublist) hapart
  | finished hseen hnames =>
    exact hdone.separated hseen (fun _ => ⟨summary_data _, inOrderOf_perm (hnames ▸ horder) (nodup_eraseDups sources)⟩)
      (hnames ▸ hnodup) hapart

theorem runs_quietly {α : Type} {least : Int} {a : Attempt α} {Q : Except Failure α → Disk → Prop}
    (h : Act.Runs system a.run d Q) : Act.Runs system (quietly least a).run d Q := by
  rintro s rfl hsystem
  exact h { s with desk := { s.desk with log := [] } } rfl hsystem

/-- The texts of a dry run stand in the metadata of its batch. -/
def Listed (c : Config) (b : Batch) : Prop :=
  b.result.isOk = true → c.isOn .dryRun = true →
    b.result.metadata.get? "generated_code" = some (.record (generatedCode b.files))

theorem runs_migrate {paths : List String} (hpaths : expand d c paths = .ok sources)
    (hapart : ∀ s ∈ sources, ∀ s' ∈ sources, s ≠ s' → Undisturbed c s s') :
    Act.Runs system (migrate tools c runId paths).run d fun e d' =>
      ∀ b, e = .ok b → Separated tools c sources d d' b ∧ Listed c b := by
  refine runs_attempt_bind (runs_attempt_ofExcept ?_)
  split
  · refine runs_quietly (runs_attempt_session fun session hsession => ?_)
    refine runs_attempt_bind (runs_attempt_ofExcept ?_)
    rw [hsession, hpaths]
    refine runs_attempt_bind ((runs_migrateFiles hapart).mono fun e d' h => ?_)
    cases e with
    | error m => exact fun b hb => by cases hb
    | ok b₀ =>
      refine Act.runs_pure fun b hb => ?_
      have hseparated := h b₀ rfl
      obtain rfl := Except.ok.inj hb
      split
      · refine ⟨⟨hseparated.data, hseparated.distinct, hseparated.migrated, hseparated.planned⟩, fun _ _ => ?_⟩
        rw [Batch.withGeneratedCode, Metadata.get?_put, if_pos rfl]
      · rename_i hplain
        exact ⟨hseparated, fun hok hdry => absurd (by rw [hok, hdry]; rfl) hplain⟩
  · exact fun b hb => by cases hb

end Files

/-! ### Two sources of one name -/

/-- Two directories with a source of the same name in each. -/
def namesakeDisk : Disk :=
  ⟨[(["a"], .directory), (["a", "t.py"], .file "x = 1\n".toUTF8), (["b"], .directory),
    (["b", "t.py"], .file "x = 2\n".toUTF8)]⟩

/-- The sources of `namesakeDisk`. -/
def namesakes : List String := ["a/t.py", "b/t.py"]

/-- The default configuration, with a suffix for targets. -/
def suffixConfig : Config :=
  { Config.standard with value := fun s => if s = .targetSuffix then .text "_new" else Setting.standard s }

/-- The default configuration, with one directory for all targets. -/
def targetConfig : Config :=
  { Config.standard with value := fun s => if s = .targetRoot then .text "out" else Setting.standard s }

/-- Whether the sources of `namesakeDisk` are migrated well, their targets, and what lies on the disk then. -/
def namesakeRun (c : Config) : Option (Bool × List String × List (Place × Entry)) :=
  let r := Act.outcome (migrateFiles .standard c "run" namesakes).run namesakeDisk false
  r.1.toOption.map fun b => (b.result.isOk, targets b.files, r.2.desk.disk.entries)

theorem of_namesakeRun {c : Config} {isOk : Bool} {ts : List String} {es : List (Place × Entry)}
    (h : namesakeRun c = some (isOk, ts, es)) :
    ∃ b s, Act.outcome (migrateFiles .standard c "run" namesakes).run namesakeDisk false = (.ok b, s) ∧
      b.result.isOk = isOk ∧ targets b.files = ts ∧ s.desk.disk = ⟨es⟩ := by
  obtain ⟨b, hb, heq⟩ := Option.map_eq_some_iff.mp h
  cases heq
  exact ⟨b, _, Prod.ext (Except.eq_ok_of_toOption hb) rfl, rfl, rfl, rfl⟩

end FluentShift.Migration
