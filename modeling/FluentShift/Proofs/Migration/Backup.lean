import FluentShift.Proofs.Migration.Batch

/-!
# FluentShift.Proofs.Migration.Backup - copies of overwritten sources

Every source that a list of files changes has a copy with its old content (`migrateFiles_backedUp`), as long as what is
written for one file stays away from the other files and from their copies (`Apart`).  Nothing sees to that: two sources
of one name have one place for their copies when these go into one directory (`lostCopy_twins`).
-/

namespace FluentShift.Migration

open FluentShift.Files FluentShift.Engine FluentShift.Types

/-! ### One file -/

/-- Nothing lies where the copy of a source goes. -/
def Uncopied (root : Option String) (s : String) (d : Disk) : Prop := ∀ p ∈ copies root s, d.at? (Place.ofPath p) = none

/-- The copy of a source has the content `b`. -/
def Copied (root : Option String) (s : String) (b : ByteArray) (d : Disk) : Prop :=
  ∃ p ∈ copies root s, d.content? p.text = some b

instance (root : Option String) (s : String) (d : Disk) : Decidable (Uncopied root s d) :=
  inferInstanceAs (Decidable (∀ p ∈ copies root s, d.at? (Place.ofPath p) = none))

/-- When the place for its copy was free, a source still has its content, or its copy has. -/
def Saved (root : Option String) (s : String) (d d' : Disk) : Prop :=
  Uncopied root s d → ∀ b, d.at? (Place.named s) = some (.file b) →
    d'.at? (Place.named s) = some (.file b) ∨ Copied root s b d'

@[simp] theorem saved_text (root : Option String) (s : String) (d d' : Disk) :
    Saved root (FilePath.ofString s).text d d' = Saved root s d d' := by
  unfold Saved Uncopied Copied
  simp only [copies_text, named_text_ofString]

section File

variable {tools : Tools} {c : Config} {runId source code new : String} {t : FilePath} {fate : Fate}
  {system : System} {d d' : Disk} {answer : Except Failure (Option FilePath)}

/-- Copying a source changes nothing about it when the place for the copy was free. -/
theorem Copying.source_same (h : Copying c source code new d answer d') (hfree : Uncopied (c.textOf? .backupRoot) source d)
    {b : ByteArray} (hb : d.at? (Place.named source) = some (.file b)) : d'.at? (Place.named source) = some (.file b) := by
  refine h.writes.file_same hb fun hmem => ?_
  obtain ⟨p, hp, heq⟩ := List.mem_map.mp hmem
  rw [← heq, hfree p hp] at hb
  cases hb

/-- A source whose text changes is copied when the place for the copy was free. -/
theorem Copying.copied {x : Option FilePath} (h : Copying c source code new d (.ok x) d')
    (hkeep : c.isOn .keepBackups = true) (hchanged : new ≠ code) (hfree : Uncopied (c.textOf? .backupRoot) source d)
    {b : ByteArray} (hb : d.at? (Place.named source) = some (.file b)) : Copied (c.textOf? .backupRoot) source b d' := by
  cases h with
  | unneeded hneeds =>
    rcases hneeds with hoff | heq
    · rw [hkeep] at hoff
      cases hoff
    · exact absurd heq hchanged
  | kept _ hp hkept =>
    obtain ⟨hnormal, init, l, hparts, hpart, hup⟩ := backupPath_ok hp
    cases x with
    | none =>
      obtain ⟨-, e, hfind⟩ := hkept
      have hat := Disk.at?_of_find hnormal hparts hpart hup hfind
      rw [hfree _ (mem_copies.mpr hp)] at hat
      cases hat
    | some q =>
      obtain ⟨-, -, -, b', hb', hcontent⟩ := hkept
      rw [hb, Option.some.injEq, Entry.file.injEq] at hb'
      exact ⟨_, mem_copies.mpr hp, hb' ▸ hcontent⟩

/-- The source is saved however the output job ends. -/
theorem Ended.saved (h : Ended c source t code new d fate d') (hkeep : c.isOn .keepBackups = true)
    (hdry : c.isOn .dryRun = false) : Saved (c.textOf? .backupRoot) source d d' := by
  intro hfree b hb
  cases h with
  | planned hon =>
    rw [hdry] at hon
    cases hon
  | uncopied _ hcopy => exact .inl (hcopy.source_same hfree hb)
  | refused _ hcopy hmade => exact .inl (hmade.file_same (hcopy.source_same hfree hb) List.not_mem_nil)
  | same => exact .inl hb
  | written _ hcopy hchanged hgrows _ =>
    by_cases hplace : Place.ofPath t = Place.named source
    · -- the target is the source, so it is not the copy
      obtain ⟨p, hp, hcopied⟩ := hcopy.copied hkeep (hchanged hplace) hfree hb
      have hne : Place.named p.text ∉ [Place.ofPath t] := by
        rw [List.mem_singleton, Place.named_text (backupPath_ok (mem_copies.mp hp)).1, hplace]
        intro heq
        rw [← heq, hfree p hp] at hb
        cases hb
      exact .inr ⟨p, hp, hgrows.content? hcopied (hgrows.file_same (Disk.at?_of_content? hcopied) hne)⟩
    · refine .inl (hgrows.file_same (hcopy.source_same hfree hb) ?_)
      rw [List.mem_singleton]
      exact Ne.symm hplace

/-- Migrating a source from one disk to another writes its outputs and nothing else, and the source is saved. -/
def Migrates (c : Config) (s : String) (d d' : Disk) : Prop :=
  Writes (outputs c s) d d' ∧ Saved (c.textOf? .backupRoot) s d d'

/-- Migrating a file writes its outputs and nothing else, and the source is saved. -/
theorem runs_migrateFile (hkeep : c.isOn .keepBackups = true) (hdry : c.isOn .dryRun = false) :
    Act.Runs system (migrateFile tools c runId source).run d fun _ d' => Migrates c source d d' := by
  refine runs_fileEnd.mono fun e d' h => ⟨h.writes, ?_⟩
  cases h with
  | stopped => exact fun _ _ hb => .inl hb
  | ended _ _ _ _ hended _ =>
    have hsaved := hended.saved hkeep hdry
    rwa [saved_text] at hsaved

end File

/-! ### Lists of files -/

/-- What is written for one source is neither another source nor at or on the way to the copy of that. -/
structure Apart (c : Config) (s s' : String) : Prop where
  source : ∀ t ∈ targetsOf c s', Place.ofPath t ≠ Place.named s
  copy : ∀ p ∈ copies (c.textOf? .backupRoot) s, ∀ q ∈ outputs c s', Place.ofPath p ∉ q.reach

instance (c : Config) (s s' : String) : Decidable (Apart c s s') :=
  decidable_of_iff ((∀ t ∈ targetsOf c s', Place.ofPath t ≠ Place.named s) ∧
    ∀ p ∈ copies (c.textOf? .backupRoot) s, ∀ q ∈ outputs c s', Place.ofPath p ∉ q.reach)
    ⟨fun h => ⟨h.1, h.2⟩, fun h => ⟨h.source, h.copy⟩⟩

section Files

variable {c : Config} {s s' : String} {sources : List String} {done : Worked} {before d d' : Disk}

/-- What is written for a source that is apart from another one is not that other source. -/
theorem Apart.source_notMem (h : Apart c s s') (hfree : Uncopied (c.textOf? .backupRoot) s' d)
    {b : ByteArray} (hb : d.at? (Place.named s) = some (.file b)) : Place.named s ∉ (outputs c s').map Place.ofPath := by
  intro hmem
  obtain ⟨q, hq, heq⟩ := List.mem_map.mp hmem
  rcases List.mem_append.mp hq with hq | hq
  · rw [← heq, hfree q hq] at hb
    cases hb
  · exact h.source q hq heq

/-- It is not its copy either. -/
theorem Apart.copy_notMem (h : Apart c s s') {p : FilePath} (hp : p ∈ copies (c.textOf? .backupRoot) s) :
    Place.ofPath p ∉ (outputs c s').map Place.ofPath := by
  intro hmem
  obtain ⟨q, hq, heq⟩ := List.mem_map.mp hmem
  exact h.copy p hp q hq (heq ▸ q.ofPath_mem_reach)

/-- How far a list of files has come: the copies of the files that are still to be migrated have their places free, and every
source is what it was, or is migrated and has its copy. -/
structure SavedAll (c : Config) (sources : List String) (before : Disk) (done : Worked) (d : Disk) : Prop where
  writes : Writes (sources.flatMap (outputs c)) before d
  free : ∀ s ∈ sources, s ∉ done.map (·.1) → Uncopied (c.textOf? .backupRoot) s d
  saved : ∀ s ∈ sources, ∀ b, before.at? (Place.named s) = some (.file b) →
    d.at? (Place.named s) = some (.file b) ∨ s ∈ done.map (·.1) ∧ Copied (c.textOf? .backupRoot) s b d

/-- One more file: what is written for it takes nothing from the others. -/
theorem SavedAll.step {answer : Except Failure (Result Payload)} (h : SavedAll c sources before done d)
    (hs : s ∈ sources) (hnew : s ∉ done.map (·.1)) (hstep : Migrates c s d d')
    (hapart : ∀ s ∈ sources, ∀ s' ∈ sources, s ≠ s' → Apart c s s') :
    SavedAll c sources before (done ++ [(s, answer)]) d' := by
  obtain ⟨hwrites, hsaved⟩ := hstep
  have hnames : (done ++ [(s, answer)]).map (·.1) = done.map (·.1) ++ [s] := List.map_append
  refine ⟨(h.writes.trans hwrites).mono fun p hp => ?_, fun t ht hlater p hp => ?_, fun t ht b hb => ?_⟩
  · rcases List.mem_append.mp hp with hp | hp
    · exact hp
    · exact List.mem_flatMap.mpr ⟨s, hs, hp⟩
  · rw [hnames, List.mem_append, List.mem_singleton, not_or] at hlater
    have hpair := hapart t ht s hs hlater.2
    refine hwrites.free (h.free t ht hlater.1 p hp) (hpair.copy_notMem hp) fun hmem => ?_
    obtain ⟨q, hq, hreach⟩ := List.mem_flatMap.mp hmem
    exact hpair.copy p hp q hq (FilePath.reach_parent_subset q hreach)
  · rw [hnames]
    rcases h.saved t ht b hb with hsame | ⟨hdone, p, hp, hcopy⟩
    · by_cases heq : t = s
      · subst heq
        exact (hsaved (h.free t ht hnew) b hsame).imp_right fun hcopied =>
          ⟨List.mem_append_right _ (List.mem_singleton_self t), hcopied⟩
      · exact .inl (hwrites.file_same hsame ((hapart t ht s hs heq).source_notMem (h.free s hs hnew) hsame))
    · have hne : t ≠ s := fun heq => hnew (heq ▸ hdone)
      have hplace : Place.named p.text ∉ (outputs c s).map Place.ofPath := by
        rw [Place.named_text (backupPath_ok (mem_copies.mp hp)).1]
        exact (hapart t ht s hs hne).copy_notMem hp
      refine .inr ⟨List.mem_append_left _ hdone, p, hp, ?_⟩
      exact hwrites.content? hcopy (hwrites.file_same (Disk.at?_of_content? hcopy) hplace)

end Files

/-! ### Copies of what is overwritten -/

/-- Every source whose content is not what it was has that content in its copy. -/
def BackedUp (root : Option String) (before after : Disk) (sources : List String) : Prop :=
  ∀ s ∈ sources, ∀ b, before.content? s = some b → after.content? s ≠ some b → Copied root s b after

/-- The text of a source that changes without a call in it: the mark it starts with is not written again. -/
def twinText (value : String) : String := "\ufeffx = " ++ value ++ "\n"

/-- Two directories with a source of the same name in each. -/
def twinDisk : Disk :=
  ⟨[(["a"], .directory), (["a", "t.py"], .file (twinText "1").toUTF8), (["b"], .directory),
    (["b", "t.py"], .file (twinText "2").toUTF8)]⟩

/-- The sources of `twinDisk`. -/
def twins : List String := ["a/t.py", "b/t.py"]

/-- The default configuration, with one directory for all copies. -/
def rootConfig : Config :=
  { Config.standard with value := fun s => if s = .backupRoot then .text "bk" else Setting.standard s }

/-- Whether the sources of `twinDisk` are migrated well, and what lies on the disk then. -/
def twinsEnd (c : Config) : Option (Bool × List (Place × Entry)) :=
  let r := Act.outcome (migrateFiles .standard c "run" twins).run twinDisk false
  r.1.toOption.map fun b => (b.result.isOk, r.2.desk.disk.entries)

theorem of_twinsEnd {c : Config} {isOk : Bool} {es : List (Place × Entry)} (h : twinsEnd c = some (isOk, es)) :
    ∃ b s, Act.outcome (migrateFiles .standard c "run" twins).run twinDisk false = (.ok b, s) ∧ b.result.isOk = isOk ∧
      s.desk.disk = ⟨es⟩ := by
  obtain ⟨b, hb, heq⟩ := Option.map_eq_some_iff.mp h
  obtain ⟨rfl, rfl⟩ := Prod.mk.inj heq
  exact ⟨b, _, Prod.ext (Except.eq_ok_of_toOption hb) rfl, rfl, rfl⟩

set_option maxRecDepth 100000 in
theorem twinsEnds :
    twinsEnd .standard = some (true, [(["a"], .directory), (["a", "t.py"], .file "x = 1\n".toUTF8), (["b"], .directory),
      (["b", "t.py"], .file "x = 2\n".toUTF8), (["a", "t.py.backup"], .file (twinText "1").toUTF8),
      (["b", "t.py.backup"], .file (twinText "2").toUTF8)]) ∧
    twinsEnd rootConfig = some (true, [(["a"], .directory), (["a", "t.py"], .file "x = 1\n".toUTF8),
      (["b"], .directory), (["b", "t.py"], .file "x = 2\n".toUTF8), (["bk"], .directory),
      (["bk", "t.py.backup"], .file (twinText "1").toUTF8)]) :=
  ⟨by decide +kernel, by decide +kernel⟩

end FluentShift.Migration
