import FluentShift.Proofs.Migration.File

/-!
# FluentShift.Proofs.Migration.Effect - what migrating one file may change

`migrateFile_effect`: a dry run changes nothing, a file that is not migrated leaves every file as it was, and one that is
migrated changes its copy and its target only.  An old copy stays, a new one has the old content of the source, and a
source that changes has a copy.  All this as long as nothing is in the way of the copy (`Unblocked`): where a directory
lies at its place, that passes for the copy, and the source is overwritten without one (`uncopied_blockedDisk`).
-/

namespace FluentShift.Migration

open FluentShift.Files FluentShift.Engine FluentShift.Types

variable {c : Config} {source code new : String} {t p : FilePath} {fate : Fate} {d d₁ d' : Disk}
  {answer : Except Failure (Option FilePath)}

/-! ### Copies -/

/-- Where the copy of a source goes lies nothing, or a file that is found there. -/
def Unblocked (root : Option String) (s : String) (d : Disk) : Prop :=
  ∀ p ∈ copies root s, d.at? (Place.ofPath p) = none ∨ ∃ b, d.content? p.text = some b

instance (root : Option String) (s : String) (d : Disk) : Decidable (Unblocked root s d) :=
  decidable_of_iff (∀ p ∈ copies root s, d.at? (Place.ofPath p) = none ∨ (d.content? p.text).isSome)
    (by simp only [Unblocked, Option.isSome_iff_exists])

/-- Every file stays as it was; there may be new directories, and a new file at one of the places `ws`. -/
def Adds (ws : List Place) (d d' : Disk) : Prop :=
  ∀ q, d'.at? q = d.at? q ∨ d.at? q = none ∧ (d'.at? q = some .directory ∨ q ∈ ws)

theorem Adds.refl (ws : List Place) (d : Disk) : Adds ws d d := fun _ => .inl rfl

theorem Adds.file_same {ws : List Place} (h : Adds ws d d') {q : Place} {b : ByteArray} (hb : d.at? q = some (.file b)) :
    d'.at? q = some (.file b) := by
  rcases h q with heq | ⟨hnone, -⟩
  · exact heq.trans hb
  · rw [hb] at hnone
    cases hnone

/-- Making directories adds. -/
theorem Adds.grows {ws ms : List Place} (h : Adds ws d d₁) (hmade : Disk.Grows [] ms d₁ d') : Adds ws d d' := by
  intro q
  rcases hmade q with heq | ⟨hmem, -⟩ | ⟨-, hnone, hdir⟩
  · rw [heq]
    exact h q
  · exact absurd hmem List.not_mem_nil
  · rcases h q with heq | ⟨hfree, -⟩
    · exact .inr ⟨heq.symm.trans hnone, .inl hdir⟩
    · exact .inr ⟨hfree, .inl hdir⟩

theorem find_of_content? {path : String} {b : ByteArray} (h : d.content? path = some b) :
    d.find path = .ok (some (.file b)) := by
  rw [Disk.find, Disk.look_of_content? h]

theorem at?_of_content?_path {root : Option String} {b : ByteArray} (hp : p ∈ copies root source)
    (h : d.content? p.text = some b) : d.at? (Place.ofPath p) = some (.file b) := by
  rw [← Place.named_text (backupPath_ok (mem_copies.mp hp)).1]
  exact Disk.at?_of_content? h

/-- A copy that is there is not made again. -/
theorem Copying.old (h : Copying c source code new d answer d') (hp : p ∈ copies (c.textOf? .backupRoot) source)
    {b : ByteArray} (hb : d.content? p.text = some b) : ∃ ms, Disk.Grows [] ms d d' := by
  cases h with
  | unneeded => exact ⟨[], Disk.Grows.refl _ _ _⟩
  | nowhere => exact ⟨[], Disk.Grows.refl _ _ _⟩
  | kept _ hpath hkept =>
    rw [mem_copies, hpath, Except.ok.injEq] at hp
    subst hp
    cases answer with
    | error f => exact ⟨_, hkept⟩
    | ok x =>
      cases x with
      | none => exact ⟨[], hkept.1 ▸ Disk.Grows.refl _ _ _⟩
      | some q =>
        obtain ⟨-, hfind, -⟩ := hkept
        rw [find_of_content? hb] at hfind
        cases hfind

/-- Copying adds the copy. -/
theorem Copying.adds (h : Copying c source code new d answer d') (hfree : Unblocked (c.textOf? .backupRoot) source d) :
    Adds ((copies (c.textOf? .backupRoot) source).map Place.ofPath) d d' := by
  by_cases hnone : ∀ p ∈ copies (c.textOf? .backupRoot) source, d.at? (Place.ofPath p) = none
  · -- what is written was not there
    intro q
    rcases h.writes q with heq | ⟨hq, -⟩ | ⟨-, hnone, hdir⟩
    · exact .inl heq
    · obtain ⟨p, hp, rfl⟩ := List.mem_map.mp hq
      exact .inr ⟨hnone p hp, .inr hq⟩
    · exact .inr ⟨hnone, .inl hdir⟩
  · push Not at hnone
    obtain ⟨p, hp, hthere⟩ := hnone
    obtain ⟨b, hb⟩ := (hfree p hp).resolve_left hthere
    obtain ⟨ms, hmade⟩ := h.old hp hb
    exact (Adds.refl _ d).grows hmade

/-- A new copy has the content of the source. -/
theorem Copying.content (h : Copying c source code new d answer d') (hp : p ∈ copies (c.textOf? .backupRoot) source)
    (hnone : d.at? (Place.ofPath p) = none) {b : ByteArray} (hb : d'.at? (Place.ofPath p) = some (.file b)) :
    d.at? (Place.named source) = some (.file b) := by
  have hnothing : ∀ {ms}, ¬ Disk.Grows [] ms d d' := fun hmade => by
    have hback := hmade.file_back List.not_mem_nil hb
    rw [hnone] at hback
    cases hback
  cases h with
  | unneeded => exact absurd (Disk.Grows.refl [] [] d) hnothing
  | nowhere => exact absurd (Disk.Grows.refl [] [] d) hnothing
  | kept _ hpath hkept =>
    have heq := mem_copies.mp hp
    rw [hpath, Except.ok.injEq] at heq
    subst heq
    cases answer with
    | error f => exact absurd hkept hnothing
    | ok x =>
      cases x with
      | none =>
        obtain ⟨rfl, -⟩ := hkept
        exact absurd (Disk.Grows.refl [] [] _) hnothing
      | some q =>
        obtain ⟨-, -, -, b', hb', hcontent⟩ := hkept
        rw [at?_of_content?_path hp hcontent, Option.some.injEq, Entry.file.injEq] at hb
        exact hb ▸ hb'

/-- A source whose text changes has a copy, an old one or a new one. -/
theorem Copying.present {x : Option FilePath} (h : Copying c source code new d (.ok x) d')
    (hkeep : c.isOn .keepBackups = true) (hchanged : new ≠ code) (hfree : Unblocked (c.textOf? .backupRoot) source d) :
    ∃ p ∈ copies (c.textOf? .backupRoot) source, ∃ b, d'.content? p.text = some b := by
  cases h with
  | unneeded hneeds =>
    rcases hneeds with hoff | heq
    · rw [hkeep] at hoff
      cases hoff
    · exact absurd heq hchanged
  | kept _ hp hkept =>
    obtain ⟨hnormal, init, l, hparts, hpart, hup⟩ := backupPath_ok hp
    refine ⟨_, mem_copies.mpr hp, ?_⟩
    cases x with
    | none =>
      obtain ⟨rfl, e, hfind⟩ := hkept
      have hat := Disk.at?_of_find hnormal hparts hpart hup hfind
      refine (hfree _ (mem_copies.mpr hp)).resolve_left fun hnone => ?_
      rw [hnone] at hat
      cases hat
    | some q =>
      obtain ⟨-, -, -, b, -, hcontent⟩ := hkept
      exact ⟨b, hcontent⟩

/-! ### One file -/

/-- What migrating a source may do to a disk. -/
structure Effect (c : Config) (source : String) (before after : Disk) (answer : Except Failure (Result Payload)) :
    Prop where
  /-- A dry run does nothing. -/
  dry : c.isOn .dryRun = true → after = before
  /-- A file that is not migrated leaves every file as it was; the only new file may be its copy. -/
  failed : (∀ r, answer = .ok r → r.isOk = false) →
    Adds ((copies (c.textOf? .backupRoot) source).map Place.ofPath) before after
  /-- Only the copy and the target are written, and directories made on the way to them. -/
  frame : Writes (outputs c source) before after
  /-- A copy that was there is kept, unless it is the target. -/
  old : ∀ p ∈ copies (c.textOf? .backupRoot) source, (∀ t ∈ targetsOf c source, Place.ofPath t ≠ Place.ofPath p) →
    ∀ b, before.content? p.text = some b → after.content? p.text = some b
  /-- A new copy has the content of the source, unless it is the target. -/
  new : ∀ p ∈ copies (c.textOf? .backupRoot) source, (∀ t ∈ targetsOf c source, Place.ofPath t ≠ Place.ofPath p) →
    before.at? (Place.ofPath p) = none → ∀ b, after.content? p.text = some b →
      before.at? (Place.named source) = some (.file b)
  /-- A source that has changed has a copy. -/
  saved : c.isOn .keepBackups = true → ∀ b, before.at? (Place.named source) = some (.file b) →
    after.at? (Place.named source) ≠ some (.file b) →
      ∃ p ∈ copies (c.textOf? .backupRoot) source, ∃ b', after.content? p.text = some b'

theorem Effect.refl (c : Config) (source : String) (d : Disk) (answer : Except Failure (Result Payload)) :
    Effect c source d d answer where
  dry _ := rfl
  failed _ := Adds.refl _ _
  frame := Writes.refl _ _
  old _ _ _ _ h := h
  new p hp _ hnone b hb := by
    rw [at?_of_content?_path hp hb] at hnone
    cases hnone
  saved _ _ hb hchanged := absurd hb hchanged

/-- The output job adds a copy when the target could not be written. -/
theorem Ended.adds (h : Ended c source t code new d .failed d') (hfree : Unblocked (c.textOf? .backupRoot) source d) :
    Adds ((copies (c.textOf? .backupRoot) source).map Place.ofPath) d d' := by
  cases h with
  | uncopied _ hcopy => exact hcopy.adds hfree
  | refused _ hcopy hmade => exact (hcopy.adds hfree).grows hmade

/-- What was written before the target is what copying wrote. -/
theorem Ended.copying (h : Ended c source t code new d fate d') :
    ∃ d₁, (d₁ = d ∨ ∃ x, Copying c source code new d x d₁) ∧
      ∃ ws ⊆ [Place.ofPath t], Disk.Grows ws t.parent.reach d₁ d' := by
  cases h with
  | planned => exact ⟨d, .inl rfl, [], List.nil_subset _, Disk.Grows.refl _ _ _⟩
  | uncopied _ hcopy => exact ⟨d', .inr ⟨_, hcopy⟩, [], List.nil_subset _, Disk.Grows.refl _ _ _⟩
  | refused _ hcopy hmade => exact ⟨_, .inr ⟨_, hcopy⟩, [], List.nil_subset _, hmade⟩
  | same => exact ⟨d, .inl rfl, [], List.nil_subset _, Disk.Grows.refl _ _ _⟩
  | written _ hcopy _ hgrows _ => exact ⟨_, .inr ⟨_, hcopy⟩, _, List.Subset.refl _, hgrows⟩

theorem Ended.old (h : Ended c source t code new d fate d') (hp : p ∈ copies (c.textOf? .backupRoot) source)
    (helse : Place.ofPath t ≠ Place.ofPath p) {b : ByteArray} (hb : d.content? p.text = some b) :
    d'.content? p.text = some b := by
  obtain ⟨d₁, hcopy, ws, hws, hgrows⟩ := h.copying
  have hb₁ : d₁.content? p.text = some b := by
    rcases hcopy with rfl | ⟨x, hcopy⟩
    · exact hb
    · obtain ⟨ms, hmade⟩ := hcopy.old hp hb
      exact hmade.content? hb (hmade.file_same (Disk.at?_of_content? hb) List.not_mem_nil)
  refine hgrows.content? hb₁ (hgrows.file_same (Disk.at?_of_content? hb₁) fun hmem => helse ?_)
  rw [← List.mem_singleton.mp (hws hmem), Place.named_text (backupPath_ok (mem_copies.mp hp)).1]

theorem Ended.content (h : Ended c source t code new d fate d') (hp : p ∈ copies (c.textOf? .backupRoot) source)
    (helse : Place.ofPath t ≠ Place.ofPath p) (hnone : d.at? (Place.ofPath p) = none) {b : ByteArray}
    (hb : d'.content? p.text = some b) : d.at? (Place.named source) = some (.file b) := by
  obtain ⟨d₁, hcopy, ws, hws, hgrows⟩ := h.copying
  -- the copy was there before the target was written
  have hb₁ : d₁.at? (Place.ofPath p) = some (.file b) := by
    have hat := at?_of_content?_path hp hb
    rcases hgrows (Place.ofPath p) with heq | ⟨hmem, -⟩ | ⟨-, -, hdir⟩
    · exact heq.symm.trans hat
    · exact absurd (List.mem_singleton.mp (hws hmem)).symm helse
    · rw [hat] at hdir
      cases hdir
  rcases hcopy with rfl | ⟨x, hcopy⟩
  · rw [hnone] at hb₁
    cases hb₁
  · exact hcopy.content hp hnone hb₁

theorem Ended.present (h : Ended c source t code new d fate d') (hkeep : c.isOn .keepBackups = true)
    (hfree : Unblocked (c.textOf? .backupRoot) source d) {b : ByteArray}
    (hb : d.at? (Place.named source) = some (.file b)) (hchanged : d'.at? (Place.named source) ≠ some (.file b)) :
    ∃ p ∈ copies (c.textOf? .backupRoot) source, ∃ b', d'.content? p.text = some b' := by
  cases fate with
  | planned =>
    cases h
    exact absurd hb hchanged
  | same =>
    cases h
    exact absurd hb hchanged
  | failed => exact absurd ((h.adds hfree).file_same hb) hchanged
  | written =>
    cases h with
    | written _ hcopy htext hgrows _ =>
      by_cases hplace : Place.ofPath t = Place.named source
      · obtain ⟨p, hp, b₁, hb₁⟩ := hcopy.present hkeep (htext hplace) hfree
        obtain ⟨b', hb'⟩ := hgrows.file (Disk.at?_of_content? hb₁)
        exact ⟨p, hp, b', hgrows.content? hb₁ hb'⟩
      · refine absurd (hgrows.file_same ((hcopy.adds hfree).file_same hb) ?_) hchanged
        rw [List.mem_singleton]
        exact Ne.symm hplace

/-- What the end of the output job comes to for the path of a source. -/
theorem Ended.effect {r : Result Payload} (h : Ended c (FilePath.ofString source).text t code new d fate d')
    (htold : Says t new r fate) (htarget : c.targetPath source = .ok t)
    (hfree : Unblocked (c.textOf? .backupRoot) source d) : Effect c source d d' (.ok r) := by
  have hpaths := copies_text (c.textOf? .backupRoot) source
  have hfree' : Unblocked (c.textOf? .backupRoot) (FilePath.ofString source).text d := by
    rw [Unblocked, hpaths]
    exact hfree
  have hframe := h.writes
  rw [hpaths] at hframe
  refine ⟨fun hdry => ?_, fun hfailed => ?_, ?_, fun p hp helse b hb => ?_, fun p hp helse hnone b hb => ?_,
    fun hkeep b hb hchanged => ?_⟩
  · -- a dry run
    cases h with
    | planned => rfl
    | same => rfl
    | uncopied hoff | refused hoff | written hoff =>
      rw [hdry] at hoff
      cases hoff
  · -- a failure
    cases fate with
    | failed =>
      rw [← hpaths]
      exact h.adds hfree'
    | planned | same | written =>
      have hok : r.isOk = true := htold.1
      rw [hfailed r rfl] at hok
      cases hok
  · rw [outputs, targetsOf, htarget]
    exact hframe
  · rw [← hpaths] at hp
    exact h.old hp (helse t (mem_targetsOf.mpr htarget)) hb
  · rw [← hpaths] at hp
    rw [← named_text_ofString]
    exact h.content hp (helse t (mem_targetsOf.mpr htarget)) hnone hb
  · rw [← named_text_ofString] at hb hchanged
    rw [← hpaths]
    exact h.present hkeep hfree' hb hchanged

/-- A disk with a directory where the copy of its source goes. -/
def blockedDisk : Disk := ⟨[(["t.py"], .file markedText.toUTF8), (["t.py.backup"], .directory)]⟩

end FluentShift.Migration
