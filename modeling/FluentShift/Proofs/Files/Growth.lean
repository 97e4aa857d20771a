import FluentShift.Proofs.Files.Walk

/-!
# FluentShift.Proofs.Files.Growth - what operations leave alone

`Grows ws ms d d'` says what an operation may do to a disk: write files at the places `ws`, make what was not there at the
places `ws` and `ms`, and nothing else.  `Wrote` says how writing to a path ends.
-/

namespace FluentShift.Files

namespace Disk

/-! ### What changes -/

/-- From one disk to another, files may be written at the places `ws`, and directories made where nothing was at the
places `ms`; everything else stays. -/
def Grows (ws ms : List Place) (d d' : Disk) : Prop :=
  ∀ p, d'.at? p = d.at? p ∨ (p ∈ ws ∧ d.at? p ≠ some .directory ∧ ∃ b, d'.at? p = some (.file b)) ∨
    (p ∈ ms ∧ d.at? p = none ∧ d'.at? p = some .directory)

namespace Grows

variable {ws ms ws' ms' : List Place} {d d' d'' : Disk}

theorem refl (ws ms : List Place) (d : Disk) : Grows ws ms d d := fun _ => .inl rfl

theorem mono (h : Grows ws ms d d') (hws : ws ⊆ ws') (hms : ms ⊆ ms') : Grows ws' ms' d d' := by
  intro p
  rcases h p with h | ⟨hp, h⟩ | ⟨hp, h⟩
  · exact .inl h
  · exact .inr (.inl ⟨hws hp, h⟩)
  · exact .inr (.inr ⟨hms hp, h⟩)

theorem trans (h : Grows ws ms d d') (h' : Grows ws ms d' d'') : Grows ws ms d d'' := by
  intro p
  rcases h p with heq | ⟨hp, hfree, b, hb⟩ | ⟨hp, hnone, hmade⟩
  · rw [← heq]
    exact h' p
  · -- a file that was written stays one
    refine .inr (.inl ⟨hp, hfree, ?_⟩)
    rcases h' p with heq | ⟨-, -, hb'⟩ | ⟨-, hnone, -⟩
    · exact ⟨b, heq.trans hb⟩
    · exact hb'
    · rw [hb] at hnone
      cases hnone
  · -- a directory that was made stays one
    refine .inr (.inr ⟨hp, hnone, ?_⟩)
    rcases h' p with heq | ⟨-, hdir, -⟩ | ⟨-, -, hmade'⟩
    · exact heq.trans hmade
    · exact absurd hmade hdir
    · exact hmade'

theorem directory (h : Grows ws ms d d') {p : Place} (hp : d.at? p = some .directory) : d'.at? p = some .directory := by
  rcases h p with heq | ⟨-, hdir, -⟩ | ⟨-, -, hmade⟩
  · exact heq.trans hp
  · exact absurd hp hdir
  · exact hmade

theorem file (h : Grows ws ms d d') {p : Place} {b : ByteArray} (hb : d.at? p = some (.file b)) :
    ∃ b', d'.at? p = some (.file b') := by
  rcases h p with heq | ⟨-, -, hb'⟩ | ⟨-, hnone, -⟩
  · exact ⟨b, heq.trans hb⟩
  · exact hb'
  · rw [hb] at hnone
    cases hnone

theorem file_same (h : Grows ws ms d d') {p : Place} {b : ByteArray} (hb : d.at? p = some (.file b)) (hp : p ∉ ws) :
    d'.at? p = some (.file b) := by
  rcases h p with heq | ⟨hmem, -⟩ | ⟨-, hnone, -⟩
  · exact heq.trans hb
  · exact absurd hmem hp
  · rw [hb] at hnone
    cases hnone

theorem free (h : Grows ws ms d d') {p : Place} (hnone : d.at? p = none) (hws : p ∉ ws) (hms : p ∉ ms) :
    d'.at? p = none := by
  rcases h p with heq | ⟨hp, -⟩ | ⟨hp, -⟩
  · exact heq.trans hnone
  · exact absurd hp hws
  · exact absurd hp hms

/-- A path to a file still leads to a file. -/
theorem content? (h : Grows ws ms d d') {path : String} {b b' : ByteArray} (hb : d.content? path = some b)
    (hb' : d'.at? (Place.named path) = some (.file b')) : d'.content? path = some b' :=
  content?_of_look (look_grown (fun _ => h.directory) (look_of_content? hb) (by simp [Spot.entry?]) hb')

theorem put_file {p : Place} (hp : d.at? p ≠ some .directory) (b : ByteArray) :
    Grows [p] [] d (d.put p (.file b)) := by
  intro q
  rw [at?_put (isAnchor_of_at? hp)]
  by_cases hq : q = p
  · subst hq
    rw [if_pos rfl]
    exact .inr (.inl ⟨List.mem_singleton_self q, hp, b, rfl⟩)
  · rw [if_neg hq]
    exact .inl rfl

theorem put_directory {p : Place} (hp : d.at? p = none) : Grows [] [p] d (d.put p .directory) := by
  intro q
  rw [at?_put (isAnchor_of_at? (d := d) (by simp [hp]))]
  by_cases hq : q = p
  · subst hq
    rw [if_pos rfl]
    exact .inr (.inr ⟨List.mem_singleton_self q, hp, rfl⟩)
  · rw [if_neg hq]
    exact .inl rfl

end Grows

/-! ### Operations -/

/-- What was written to a path is there, and nothing else has changed. -/
theorem write_ok {d d' : Disk} {path : String} {b : ByteArray} (h : d.write path b = .ok d') :
    Grows [Place.named path] [] d d' ∧ d'.content? path = some b := by
  have hput : ∀ spot : Spot, d.look path = .ok spot → spot.entry? ≠ some .directory →
      Grows [Place.named path] [] d (d.put (Place.named path) (.file b)) ∧
        (d.put (Place.named path) (.file b)).content? path = some b := by
    intro spot hlook hentry
    have hat := at?_of_look hlook hentry
    have hgrows := Grows.put_file (hat ▸ hentry) b
    refine ⟨hgrows, content?_of_look (look_grown (fun _ => hgrows.directory) hlook hentry ?_)⟩
    rw [at?_put (isAnchor_of_at? (hat ▸ hentry)), if_pos rfl]
  rw [write] at h
  split at h
  · rename_i p c hlook
    cases h
    obtain rfl : p = Place.named path := place_look hlook
    exact hput _ hlook (by simp [Spot.entry?])
  · cases h
  · rename_i p hlook
    cases h
    obtain rfl : p = Place.named path := place_look hlook
    exact hput _ hlook (by simp [Spot.entry?])
  · split at h <;> cases h

/-- Only what is allowed is done. -/
theorem grant_ok {α : Type} {a : Answers} {q : Request} {path : String} {r : Except Failure α} {x : α}
    (h : a.grant q path r = .ok x) : r = .ok x ∧ a.obstacle? q = none := by
  cases r with
  | error f => cases h
  | ok y =>
    rw [Answers.grant] at h
    split at h
    · cases h
    · exact ⟨h, by assumption⟩

theorem makeDirectory_ok {d d' : Disk} {path : String} (h : d.makeDirectory path = .ok d') :
    Grows [] [Place.named path] d d' := by
  rw [makeDirectory] at h
  split at h
  · cases h
  · rename_i p hlook
    cases h
    obtain rfl : p = Place.named path := place_look hlook
    exact Grows.put_directory (at?_of_look hlook (by simp [Spot.entry?]))
  · cases h

theorem grows_makeDirectoriesFrom {a : Answers} {d : Disk} {path : FilePath} (hpath : path.IsNormal) (mayExist : Bool)
    (levels : Nat) : Grows [] path.reach d (d.makeDirectoriesFrom a path mayExist levels).1 := by
  have hmade : ∀ {d d' : Disk} {p : FilePath}, p.IsNormal → d.makeDirectoryUnder a p.text = .ok d' →
      Grows [] p.reach d d' := by
    intro d d' p hp h
    refine (makeDirectory_ok (grant_ok h).1).mono (List.Subset.refl _) fun q hq => ?_
    rw [List.mem_singleton.mp hq, Place.named_text hp]
    exact p.ofPath_mem_reach
  induction levels generalizing d path mayExist with
  | zero => exact Grows.refl _ _ _
  | succ levels ih =>
    rw [makeDirectoriesFrom]
    split
    · exact hmade hpath (by assumption)
    · split
      · exact Grows.refl _ _ _
      · have hparent := (ih hpath.parent true (d := d)).mono (List.Subset.refl _) (FilePath.reach_parent_subset path)
        split
        · rename_i hrest
          rw [hrest] at hparent
          exact hparent
        · rename_i hrest
          rw [hrest] at hparent
          split
          · exact hparent.trans (hmade hpath (by assumption))
          · exact hparent
    · exact Grows.refl _ _ _

theorem grows_makeDirectories {a : Answers} {d : Disk} {path : FilePath} (hpath : path.IsNormal) (mayExist : Bool) :
    Grows [] path.reach d (d.makeDirectories a path mayExist).1 :=
  grows_makeDirectoriesFrom hpath mayExist _

end Disk

open Disk

theorem grows_ensureParent (a : Answers) (d : Disk) (path : String) (mayExist : Bool) :
    Grows [] (FilePath.ofString path).parent.reach d (ensureParent a d path mayExist).2 := by
  have hmade := grows_makeDirectories (a := a) (d := d) (FilePath.isNormal_ofString path).parent mayExist
  rw [ensureParent]
  split <;>
  · rename_i hrest
    rw [hrest] at hmade
    exact hmade

/-- How writing to a path ends: when it was refused, directories were made on the way and nothing else; otherwise what is
there now has the property `P`. -/
def Wrote {α : Type} (path : String) (P : ByteArray → Prop) (d : Disk) : Except Failure α → Disk → Prop
  | .error _, d' => Grows [] (FilePath.ofString path).parent.reach d d'
  | .ok _, d' => Grows [Place.named path] (FilePath.ofString path).parent.reach d d' ∧
      ∃ b, P b ∧ d'.content? path = some b

/-- A file that was not written was there before. -/
theorem Disk.Grows.file_back {ws ms : List Place} {d d' : Disk} (h : Grows ws ms d d') {p : Place} (hp : p ∉ ws)
    {b : ByteArray} (hb : d'.at? p = some (.file b)) : d.at? p = some (.file b) := by
  rcases h p with heq | ⟨hmem, -⟩ | ⟨-, -, hdir⟩
  · exact heq.symm.trans hb
  · exact absurd hmem hp
  · rw [hb] at hdir
    cases hdir

/-- What writing comes to after directories were made on the way. -/
theorem Wrote.after {α : Type} {path : String} {P Q : ByteArray → Prop} {d d₁ d' : Disk} {answer : Except Failure α}
    (hmade : Grows [] (FilePath.ofString path).parent.reach d d₁) (hPQ : ∀ b, P b → Q b)
    (h : Wrote path P d₁ answer d') : Wrote path Q d answer d' := by
  cases answer with
  | error f => exact hmade.trans h
  | ok x =>
    obtain ⟨hgrows, b, hb, hcontent⟩ := h
    exact ⟨(hmade.mono (List.nil_subset _) (List.Subset.refl _)).trans hgrows, b, hPQ b hb, hcontent⟩

theorem wrote_of_write {a : Answers} {path : String} {b : ByteArray} {P : ByteArray → Prop} {d d' : Disk} (hb : P b)
    (h : d.writeUnder a path b = .ok d') : Wrote path P d (.ok ()) d' :=
  ⟨(write_ok (grant_ok h).1).1.mono (List.Subset.refl _) (List.nil_subset _), b, hb, (write_ok (grant_ok h).1).2⟩

theorem wrote_writeFile (a : Answers) (d : Disk) (path : String) (content : ByteArray) :
    Wrote path (· = content) d (writeFile a d path content).1 (writeFile a d path content).2 := by
  have hmade := grows_ensureParent a d path true
  unfold writeFile
  generalize ensureParent a d path true = made at hmade
  obtain ⟨made, d₁⟩ := made
  cases made with
  | error f => exact hmade
  | ok _ =>
    dsimp only
    split
    · exact (wrote_of_write (P := (· = content)) rfl (by assumption)).after hmade fun _ h => h
    · exact hmade

/-- The copy of a file is what lay at the place of that file. -/
theorem wrote_copyFile (a : Answers) (d : Disk) (source : String) (target : FilePath) :
    Wrote target.text (fun b => d.at? (Place.named source) = some (.file b)) d (copyFile a d source target).1
      (copyFile a d source target).2 := by
  have hmade := grows_ensureParent a d target.text true
  unfold copyFile
  generalize ensureParent a d target.text true = made at hmade
  obtain ⟨made, d₁⟩ := made
  cases made with
  | error f => exact hmade
  | ok _ =>
    dsimp only
    split
    · exact hmade
    · rename_i bytes hread
      have hread := at?_of_content? (read_ok (grant_ok hread).1)
      split
      · exact (wrote_of_write (hmade.file_back List.not_mem_nil hread) (by assumption)).after hmade fun _ h => h
      · exact hmade

end FluentShift.Files
