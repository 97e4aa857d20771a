import FluentShift.Proofs.Migration.File

/-!
# FluentShift.Proofs.Migration.Untouched - files without a rewritten call

Rewriting that rewrites no call leaves the tree of a file as it was (`file_of_rewriteCalls`).  Whether the file on the disk
stays as it was depends on the printing and the formatting alone: nothing is done exactly when the printed file, formatted,
is the text that was read (`migrateFile_untouched`).  A text that starts with a byte order mark is printed without it (`touched_markedDisk`).
-/

namespace FluentShift.Rewrite

open FluentShift.Source FluentShift.Source.Tree

/-! ### Trees without a rewritten call -/

/-- Splicing that puts no chain into a tree leaves it as it was. -/
theorem tree_of_nothing_applied {m : Mapping} {plans : List (Path × Classification)} {t : Tree} {p : Path} {s : Spliced}
    (haim : Aimed plans t p) (h : spliceFrom m plans t p = .ok s) (hnone : s.applied = []) : s.tree = t := by
  revert hnone
  refine spliceFrom_induct (P := fun _ t s => s.applied = [] → s.tree = t) (fun _ _ _ => rfl) ?_ haim h
  intro p k ts ss s _ hss hs hnone
  have hchildren : ss.flatMap (·.applied) = [] → ss.map (·.tree) = ts := by
    intro happlied
    have htrees : List.Forall₂ (fun s c => s.tree = c.2) ss (locate p ts) := by
      refine (forall₂_mem hss.flip).imp fun s c hc => hc.2.2 ?_
      exact List.flatMap_eq_nil_iff.mp happlied s hc.1
    have hmap : ss.map (·.tree) = (locate p ts).map Prod.snd := by
      rw [← List.forall₂_eq_eq_eq, List.forall₂_map_left_iff, List.forall₂_map_right_iff]
      exact htrees
    rw [hmap, map_snd_locate]
  cases hs with
  | kept => exact congrArg (Source.Tree.node k) (hchildren hnone)
  | chained => exact absurd hnone (by simp)
  | refused => exact congrArg (Source.Tree.node k) (hchildren hnone)

/-- Rewriting that rewrites no call leaves the file as it was. -/
theorem file_of_rewriteResult {s : Setup} {f : SourceFile} {o : Outcome} (h : rewriteResult s f = .ok o)
    (hnone : o.rewritten = []) : o.file = f := by
  obtain ⟨plans, skipped, hplans, ⟨-, rfl⟩ | ⟨spliced, hsplice, rfl⟩⟩ := rewriteResult_ok h
  · rfl
  · have happlied : spliced.applied = [] := by
      refine List.eq_nil_iff_forall_not_mem.mpr fun q hq => ?_
      have hmem := (splice_covers_plans hplans hsplice).mem_iff.mp (List.mem_append_left _ hq)
      obtain ⟨r, hr, rfl⟩ := List.mem_map.mp hmem
      refine List.filter_eq_nil_iff.mp hnone r hr ?_
      exact List.contains_iff_mem.mpr hq
    show ({ f with tree := spliced.tree } : SourceFile) = f
    rw [tree_of_nothing_applied (planned_plans hplans).aimed hsplice happlied]

end FluentShift.Rewrite

namespace FluentShift.Migration

open FluentShift.Files FluentShift.Engine FluentShift.Rewrite FluentShift.Types

variable {tools : Tools} {c : Config} {source code : String} {bytes : ByteArray} {f : Source.SourceFile} {s : Setup}
  {o : Outcome} {r : Result Payload} {d : Disk} {session : Session}

/-- Without a rewritten call a text becomes what printing its file gives, formatted. -/
theorem newText_of_rewriteCalls (hparse : Source.SourceFile.parse? code = some f)
    (hsetup : setupOf c tools.oracle = .ok s) (hcalls : (rewriteCalls s f).value = .ok o) (hnone : o.rewritten = []) :
    newText tools d c code = formattedText tools.formatter d c f.code := by
  have hmapping : c.mapping = .ok s.mapping := by
    rw [setupOf] at hsetup
    cases hm : c.mapping with
    | ok m =>
      rw [hm] at hsetup
      cases hsetup
      rfl
    | error m =>
      rw [hm] at hsetup
      cases hsetup
  have hreconcile : (reconcileImports s.mapping o).value = .ok o := by
    rw [reconcileImports, hnone]
    rfl
  have hresult : rewriteResult s f = .ok o := (rewriteCalls_gives s f).value ▸ hcalls
  rw [newText, rewrittenText_ok hsetup hmapping hparse hcalls hreconcile, file_of_rewriteResult hresult hnone]
  rfl

/-- Nothing was done to a disk for a file, and its result says so. -/
def Untouched (before after : Disk) (r : Result Payload) : Prop :=
  after = before ∧ r.metadata.get? "written" = some (.bool false)

/-- When a file is migrated in place and no call of it is rewritten, then nothing is done to the disk exactly when the
printed file, formatted if that is asked for, is the text that was read. -/
theorem migrateFile_untouched (runId : String) (system : System) (listening : Bool) (hdry : c.isOn .dryRun = false)
    (hplace : ∀ t ∈ targetsOf c source, Place.ofPath t = Place.named source)
    (hcontent : d.content? (FilePath.ofString source).text = some bytes) (hcode : Text.Utf8.decode bytes = .ok code)
    (hparse : Source.SourceFile.parse? code = some f) (hsetup : setupOf c tools.oracle = .ok s)
    (hcalls : (rewriteCalls s f).value = .ok o) (hnone : o.rewritten = [])
    (hrun : Act.outcomeUnder (migrateFile tools c runId source).run system d listening = (.ok r, session))
    (hok : r.isOk = true) :
    (Untouched d session.desk.disk r ↔ formattedText tools.formatter d c f.code = .ok code) ∧
      (c.isOn .format = false → (Untouched d session.desk.disk r ↔ f.code = code)) := by
  have hend := (runs_fileEnd : Act.Runs system (migrateFile tools c runId source).run d _).outcomeUnder listening
  rw [hrun] at hend
  have huntouched : Untouched d session.desk.disk r ↔ formattedText tools.formatter d c f.code = .ok code := by
    cases hend with
    | stopped hstopped =>
      rw [(hstopped r rfl).1] at hok
      cases hok
    -- the text that the run came to is the one of the file and the setup at hand
    | ended hcontent' hcode' htarget htext hended htold =>
      obtain rfl := Option.some.inj (hcontent.symm.trans hcontent')
      obtain rfl := Except.ok.inj (hcode.symm.trans hcode')
      rw [newText_of_rewriteCalls hparse hsetup hcalls hnone] at htext
      rw [htext, Except.ok.injEq]
      have hin := hplace _ (mem_targetsOf.mpr htarget)
      cases hended with
      | planned hon =>
        rw [hdry] at hon
        cases hon
      | uncopied | refused =>
        rw [isOk_of_isError htold] at hok
        cases hok
      | same _ _ hsame => exact ⟨fun _ => hsame, fun _ => ⟨rfl, htold.2.2⟩⟩
      -- a text that is written differs from what the file held, so the disk tells
      | written _ _ hchanged _ _ =>
        rw [named_text_ofString] at hchanged
        refine ⟨fun h => ?_, fun h => absurd h (hchanged hin)⟩
        have hwritten := htold.2.2.symm.trans h.2
        cases hwritten
  refine ⟨huntouched, fun hoff => huntouched.trans ?_⟩
  rw [formattedText, if_neg (by rw [hoff]; exact Bool.false_ne_true), Except.ok.injEq]

/-! ### Two texts without a call -/

theorem setupOf_standard : setupOf .standard .local_ = .ok plainSetup := rfl

/-- Whether no call of a text is rewritten, and the text that its file is printed as. -/
def callRun (code : String) : Option (Bool × String) := do
  let f ← Source.SourceFile.parse? code
  let o ← (rewriteCalls plainSetup f).value.toOption
  return (o.rewritten.isEmpty, f.code)

theorem of_callRun {printed : String} (h : callRun code = some (true, printed)) :
    ∃ f o, Source.SourceFile.parse? code = some f ∧ (rewriteCalls plainSetup f).value = .ok o ∧ o.rewritten = [] ∧
      f.code = printed := by
  obtain ⟨f, hf, h⟩ := Option.bind_eq_some_iff.mp h
  obtain ⟨o, ho, h⟩ := Option.bind_eq_some_iff.mp h
  obtain ⟨hempty, hcode⟩ := Prod.mk.inj (Option.some.inj h)
  exact ⟨f, o, hf, Except.eq_ok_of_toOption ho, List.isEmpty_iff.mp hempty, hcode⟩

/-- A disk with one source. -/
def plainDisk : Disk := ⟨[(["t.py"], .file "x = 1\n".toUTF8)]⟩

/-- The source of `plainDisk` is printed as it was read, and nothing is done. -/
theorem untouched_plainDisk :
    ∃ f o r session, Source.SourceFile.parse? "x = 1\n" = some f ∧ (rewriteCalls plainSetup f).value = .ok o ∧
      o.rewritten = [] ∧ f.code = "x = 1\n" ∧
      Act.outcome (migrateFile .standard .standard "run" "t.py").run plainDisk false = (.ok r, session) ∧ r.isOk = true ∧
      Untouched plainDisk session.desk.disk r := by
  obtain ⟨f, o, hf, ho, hnone, hcode⟩ := of_callRun
    (show callRun "x = 1\n" = some (true, "x = 1\n") by decide +kernel)
  obtain ⟨r, session, hrun, hok, -⟩ := of_fileRun
    (show fileRun .standard plainDisk "t.py" = some (true, some false, plainDisk.entries) by decide +kernel)
  have huntouched := ((migrateFile_untouched "run" .calm false rfl (by decide +kernel)
    (show plainDisk.content? _ = some "x = 1\n".toUTF8 by decide +kernel) (by decide +kernel) hf setupOf_standard
    ho hnone hrun hok).2 rfl).mpr hcode
  exact ⟨f, o, r, session, hf, ho, hnone, hcode, hrun, hok, huntouched⟩

/-- The source of `markedDisk` is printed without its mark.  It is overwritten and copied, although no call of it is
rewritten. -/
theorem touched_markedDisk :
    Config.standard.isOn .dryRun = false ∧ Config.standard.isOn .format = false ∧
      (∀ t ∈ targetsOf .standard "t.py", Place.ofPath t = Place.named "t.py") ∧
      markedDisk.content? "t.py" = some markedText.toUTF8 ∧
      ∃ f o r session, Source.SourceFile.parse? markedText = some f ∧ (rewriteCalls plainSetup f).value = .ok o ∧
        o.rewritten = [] ∧
        Act.outcome (migrateFile .standard .standard "run" "t.py").run markedDisk false = (.ok r, session) ∧ r.isOk = true ∧
        writtenNote r = some true ∧ session.desk.disk.content? "t.py" = some "x = 1\n".toUTF8 ∧
        session.desk.disk.content? "t.py.backup" = some markedText.toUTF8 := by
  obtain ⟨f, o, hf, ho, hnone, -⟩ := of_callRun
    (show callRun markedText = some (true, "x = 1\n") by decide +kernel)
  obtain ⟨r, session, hrun, hok, hwritten, hdisk⟩ := of_fileRun
    (show fileRun .standard markedDisk "t.py" = some (true, some true,
      [(["t.py"], .file "x = 1\n".toUTF8), (["t.py.backup"], .file markedText.toUTF8)]) by decide +kernel)
  refine ⟨rfl, rfl, by decide +kernel, by decide +kernel, f, o, r, session, hf, ho, hnone, hrun, hok, hwritten, ?_⟩
  rw [hdisk]
  decide +kernel

end FluentShift.Migration
