import FluentShift.Proofs.Files.Growth
import Mathlib.Data.Set.Insert

/-!
# FluentShift.Proofs.Files.Work - what work does to the disk

`Work.Runs system w d Q`: on the disk `d` and under a system the work `w` comes to an answer and a disk with `Q`, whatever
was logged and tried before.  `Still ds P w`: on the disks `ds` and under every system the work gives one answer and writes
nothing, and what it gives has `P`.  `Kept` and `Wrote` say how keeping a copy and writing end.
-/

namespace FluentShift.Files

open Disk

/-! ### Trying again -/

/-- What attempts that were refused keep is kept until the last one, and that one says how it all ends. -/
theorem retry_spec {σ α : Type} {a : Attempted} {act : σ → Except Failure α × σ} {P : σ → Prop}
    {Q : Except Failure α → σ → Prop}
    (h : ∀ s, P s → Q (act s).1 (act s).2 ∧ ∀ f, (act s).1 = .error f → P (act s).2) {retries : Int} {s : σ} (hs : P s) :
    Q (retry a retries act s).answer (retry a retries act s).state := by
  -- on the retries that are left, for any number of attempts made
  have hfrom : ∀ left tried s, P s →
      Q (retryFrom a act left tried s).answer (retryFrom a act left tried s).state := by
    intro left
    induction left with
    | zero =>
      intro tried s hs
      obtain ⟨hend, -⟩ := h s hs
      rw [retryFrom]
      split
      · rename_i hact
        rw [hact] at hend
        exact hend
      · rename_i hact
        rw [hact] at hend
        split <;> exact hend
    | succ left ih =>
      intro tried s hs
      obtain ⟨hend, hkept⟩ := h s hs
      rw [retryFrom]
      split
      · rename_i hact
        rw [hact] at hend
        exact hend
      · rename_i hact
        rw [hact] at hend hkept
        split
        · exact hend
        · exact ih _ _ (hkept _ rfl)
  exact hfrom _ _ _ hs

/-! ### Work -/

namespace Work

variable {α β : Type} {system : System} {d : Disk}

/-- On a disk and under a system, which stays as it is, the work comes to an answer and a disk with a property, whatever was
logged and tried before. -/
def Runs (system : System) (w : Work α) (d : Disk) (Q : Except Failure α → Disk → Prop) : Prop :=
  ∀ k : Desk, k.disk = d → k.system = system →
    Q (StateT.run w k).1 (StateT.run w k).2.disk ∧ (StateT.run w k).2.system = system

theorem Runs.mono {w : Work α} {Q Q' : Except Failure α → Disk → Prop} (h : w.Runs system d Q)
    (hQ : ∀ e d', Q e d' → Q' e d') : w.Runs system d Q' :=
  fun k hk hsystem => (h k hk hsystem).imp_left (hQ _ _)

section Rules

variable {Q : Except Failure α → Disk → Prop}

theorem runs_pure {a : α} (h : Q (.ok a) d) : Runs system (pure a) d Q := by
  rintro k rfl rfl
  exact ⟨h, rfl⟩

theorem runs_throw {f : Failure} (h : Q (.error f) d) : Runs system (throw f) d Q := by
  rintro k rfl rfl
  exact ⟨h, rfl⟩

theorem runs_ofExcept {e : Except Failure α} (h : Q e d) : (ofExcept e).Runs system d Q := by
  cases e with
  | ok a => exact runs_pure h
  | error f => exact runs_throw h

theorem runs_bind {w : Work β} {f : β → Work α} (h : w.Runs system d fun e d' =>
    match e with
    | .ok b => (f b).Runs system d' Q
    | .error m => Q (.error m) d') : (w >>= f).Runs system d Q := by
  intro k hk hsystem
  show Q (StateT.run (ExceptT.run w >>= ExceptT.bindCont f) k).1
      (StateT.run (ExceptT.run w >>= ExceptT.bindCont f) k).2.disk ∧
    (StateT.run (ExceptT.run w >>= ExceptT.bindCont f) k).2.system = system
  rw [StateT.run_bind]
  obtain ⟨e, k', hrun⟩ : ∃ e k', StateT.run (ExceptT.run w) k = (e, k') := ⟨_, _, rfl⟩
  obtain ⟨hrest, hsystem'⟩ := h k hk hsystem
  rw [show StateT.run w k = (e, k') from hrun] at hrest hsystem'
  rw [hrun]
  cases e with
  | ok b => exact hrest k' rfl hsystem'
  | error m => exact ⟨hrest, hsystem'⟩

theorem runs_disk_bind {f : Disk → Work α} (h : (f d).Runs system d Q) : (disk >>= f).Runs system d Q := by
  rintro k rfl hsystem
  exact h k rfl hsystem

theorem runs_log_bind {level : Level} {text : String} {f : Unit → Work α} (h : (f ()).Runs system d Q) :
    (log level text >>= f).Runs system d Q := by
  rintro k rfl hsystem
  exact h { k with log := k.log ++ [⟨level, text⟩] } rfl hsystem

theorem runs_ofExcept_bind {e : Except Failure β} {f : β → Work α} (hok : ∀ b, e = .ok b → (f b).Runs system d Q)
    (herror : ∀ m, e = .error m → Q (.error m) d) : (ofExcept e >>= f).Runs system d Q := by
  refine runs_bind (runs_ofExcept ?_)
  cases e with
  | ok b => exact hok b rfl
  | error m => exact herror m rfl

/-- An operation is tried under one answer of the system after another. -/
theorem runs_retrying {operation path : String} {retries : Int} {act : Answers → Disk → Except Failure α × Disk}
    {P : Disk → Prop} (h : ∀ n d, P d → Q (act (system.answers n) d).1 (act (system.answers n) d).2 ∧
      ∀ f, (act (system.answers n) d).1 = .error f → P (act (system.answers n) d).2)
    (hd : P d) : (retrying operation path retries act).Runs system d Q := by
  rintro k rfl rfl
  obtain ⟨r, hr⟩ : ∃ r, r = retry ⟨operation, path⟩ retries (attempt k.system act) (k.disk, k.attempts) := ⟨_, rfl⟩
  have hend : Q r.answer r.state.1 := by
    rw [hr]
    exact retry_spec (P := fun s : Disk × Nat => P s.1) (Q := fun e s => Q e s.1)
      (fun s hs => h s.2 s.1 hs) hd
  have hrun : StateT.run (retrying operation path retries act) k =
      StateT.run (ofExcept r.answer) { k with disk := r.state.1, log := k.log ++ r.lines, attempts := r.state.2 } := by
    rw [hr]
    rfl
  rw [hrun]
  exact runs_ofExcept hend _ rfl rfl

theorem runs_ofRun {r : Run α} (h : Q r.value d) : (ofRun r).Runs system d Q := by
  rintro k rfl hsystem
  have hrun : StateT.run (ofRun r) k = StateT.run (ofExcept r.value) { k with log := k.log ++ r.outcome.2 } := rfl
  rw [hrun]
  exact runs_ofExcept h _ rfl hsystem

theorem runs_tryCatch {w : Work α} {f : Failure → Work α} (h : w.Runs system d fun e d' =>
    match e with
    | .ok a => Q (.ok a) d'
    | .error m => (f m).Runs system d' Q) : Runs system (tryCatch w f) d Q := by
  intro k hk hsystem
  obtain ⟨e, k', hrun⟩ : ∃ e k', StateT.run (ExceptT.run w) k = (e, k') := ⟨_, _, rfl⟩
  have htry : StateT.run (tryCatch w f : Work α) k = StateT.run (match e with
      | .ok a => (pure a : Work α)
      | .error m => f m) k' := by
    show StateT.run (ExceptT.tryCatch w f) k = _
    unfold ExceptT.tryCatch
    show StateT.run (ExceptT.run w >>= _) k = _
    rw [StateT.run_bind, hrun]
    cases e <;> rfl
  obtain ⟨hrest, hsystem'⟩ := h k hk hsystem
  rw [show StateT.run w k = (e, k') from hrun] at hrest hsystem'
  rw [htry]
  cases e with
  | ok a => exact ⟨hrest, hsystem'⟩
  | error m => exact hrest k' rfl hsystem'

end Rules

/-! ### Work that leaves the disk alone -/

/-- On the disks `ds` and under every system the work gives the same answer and leaves the disk as it is; what it gives has a
property. -/
def Still (ds : Set Disk) (P : α → Prop) (w : Work α) : Prop :=
  ∃ answer : Except Failure α, (∀ a, answer = .ok a → P a) ∧
    ∀ system, ∀ d ∈ ds, w.Runs system d fun e d' => e = answer ∧ d' = d

variable {ds : Set Disk} {P : α → Prop} {P' : β → Prop}

theorem still_pure {a : α} (h : P a) : Still ds P (pure a) :=
  ⟨.ok a, (fun _ ha => by cases ha; exact h), fun _ _ _ => runs_pure ⟨rfl, rfl⟩⟩

theorem still_throw (f : Failure) : Still ds P (throw f) :=
  ⟨.error f, (fun _ ha => by cases ha), fun _ _ _ => runs_throw ⟨rfl, rfl⟩⟩

theorem still_ofExcept (e : Except Failure α) : Still ds (fun a => e = .ok a) (ofExcept e) :=
  ⟨e, fun _ h => h, fun _ _ _ => runs_ofExcept ⟨rfl, rfl⟩⟩

theorem still_ofRun (r : Run α) : Still ds (fun a => r.value = .ok a) (ofRun r) :=
  ⟨r.value, fun _ h => h, fun _ _ _ => runs_ofRun ⟨rfl, rfl⟩⟩

theorem Still.bind {w : Work α} {f : α → Work β} (hw : Still ds P w) (hf : ∀ a, P a → Still ds P' (f a)) :
    Still ds P' (w >>= f) := by
  obtain ⟨answer, hP, hw⟩ := hw
  cases answer with
  | ok a =>
    obtain ⟨answer', hP', hf⟩ := hf a (hP a rfl)
    refine ⟨answer', hP', fun system d hd => runs_bind ((hw system d hd).mono fun e d' h => ?_)⟩
    obtain ⟨rfl, rfl⟩ := h
    exact hf system _ hd
  | error m =>
    refine ⟨.error m, (fun _ h => by cases h), fun system d hd => runs_bind ((hw system d hd).mono fun e d' h => ?_)⟩
    obtain ⟨rfl, rfl⟩ := h
    exact ⟨rfl, rfl⟩

theorem Still.tryCatch {w : Work α} {f : Failure → Work α} (hw : Still ds P w) (hf : ∀ m, Still ds P (f m)) :
    Still ds P (tryCatch w f) := by
  obtain ⟨answer, hP, hw⟩ := hw
  cases answer with
  | ok a =>
    refine ⟨.ok a, hP, fun system d hd => runs_tryCatch ((hw system d hd).mono fun e d' h => ?_)⟩
    obtain ⟨rfl, rfl⟩ := h
    exact ⟨rfl, rfl⟩
  | error m =>
    obtain ⟨answer', hP', hf⟩ := hf m
    refine ⟨answer', hP', fun system d hd => runs_tryCatch ((hw system d hd).mono fun e d' h => ?_)⟩
    obtain ⟨rfl, rfl⟩ := h
    exact hf system _ hd

/-- What looks at the disk is still where every disk makes it do the same. -/
theorem still_disk_bind {f : Disk → Work α} {w : Work α} (hf : ∀ d ∈ ds, f d = w) (hw : Still ds P w) :
    Still ds P (disk >>= f) := by
  obtain ⟨answer, hP, hw⟩ := hw
  exact ⟨answer, hP, fun system d hd => runs_disk_bind (hf d hd ▸ hw system d hd)⟩

end Work

/-! ### Texts, copies and targets -/

theorem readText_ok {d : Disk} {path code : String} (h : readText d path = .ok code) :
    ∃ bytes, d.content? path = some bytes ∧ Text.Utf8.decode bytes = .ok code := by
  obtain ⟨bytes, hread, h⟩ := Except.bind_eq_ok.mp h
  rw [textOf] at h
  split at h <;> cases h
  exact ⟨bytes, read_ok hread, by assumption⟩

/-- The system lets a path be read at every attempt. -/
def System.LetsRead (system : System) (path : String) : Prop :=
  ∀ n, (system.answers n).obstacle? (.read (Place.named path)) = none

/-- Reading a source leaves the disk alone, and gives the text of the file. -/
theorem runs_readSource {system : System} {path : String} {retries : Int} {d : Disk} :
    (readSource path retries).Runs system d fun e d' => d' = d ∧ ∀ code, e = .ok code → readText d path = .ok code := by
  refine Work.runs_retrying (P := (· = d)) (fun n d' h => ⟨⟨h, fun code hcode => ?_⟩, fun _ _ => h⟩) rfl
  obtain ⟨bytes, hread, hcode⟩ := Except.bind_eq_ok.mp hcode
  exact Except.bind_eq_ok.mpr ⟨bytes, h ▸ (grant_ok hread).1, hcode⟩

/-- How keeping a copy of a source at a path ends: when it was refused, with directories on the way to it; with nothing
when something is found there; otherwise with a copy of what lay at the place of the source. -/
def Kept (source : String) (p : FilePath) (d : Disk) : Except Failure (Option FilePath) → Disk → Prop
  | .error _, d' => Grows [] p.parent.reach d d'
  | .ok none, d' => d' = d ∧ ∃ e, d.find p.text = .ok (some e)
  | .ok (some q), d' => q = p ∧ d.find p.text = .ok none ∧ Grows [Place.ofPath p] p.parent.reach d d' ∧
      ∃ b, d.at? (Place.named source) = some (.file b) ∧ d'.content? p.text = some b

/-- Trying to write comes to writing, or to directories that were made on the way. -/
theorem runs_retrying_wrote {α : Type} {system : System} {operation path target : String} {retries : Int}
    {act : Answers → Disk → Except Failure α × Disk} {Q : Disk → ByteArray → Prop} {d : Disk}
    (hact : ∀ a d, Wrote target (Q d) d (act a d).1 (act a d).2)
    (hback : ∀ d₁, Grows [] (FilePath.ofString target).parent.reach d d₁ → ∀ b, Q d₁ b → Q d b) :
    (Work.retrying operation path retries act).Runs system d (Wrote target (Q d) d) := by
  refine Work.runs_retrying (P := Grows [] (FilePath.ofString target).parent.reach d) (fun n d₁ h₁ => ?_) (Grows.refl _ _ d)
  have hend := (hact (system.answers n) d₁).after h₁ (hback d₁ h₁)
  refine ⟨hend, fun f hf => ?_⟩
  rw [hf] at hend
  exact hend

theorem runs_keepBackup {system : System} {source : String} {root : Option String} {retries : Int} {p : FilePath} {d : Disk}
    (hp : backupPath source root = .ok p) : (keepBackup source root retries).Runs system d (Kept source p d) := by
  have hnormal := (backupPath_ok hp).1
  have hcopy : (Work.retrying "backup" source retries fun a d => copyFile a d source p).Runs system d
      (Wrote p.text (fun b => d.at? (Place.named source) = some (.file b)) d) :=
    runs_retrying_wrote (Q := fun d b => d.at? (Place.named source) = some (.file b))
      (fun a d₁ => wrote_copyFile a d₁ source p) fun d₁ h₁ b hb => h₁.file_back List.not_mem_nil hb
  rw [keepBackup, hp]
  refine Work.runs_ofExcept_bind (fun _ h => ?_) fun m h => by cases h
  cases h
  refine Work.runs_disk_bind (Work.runs_ofExcept_bind (fun found hfind => ?_) fun m _ => Grows.refl _ _ _)
  split
  · -- something is found where the copy goes
    rename_i hfound
    obtain ⟨e, rfl⟩ := Option.isSome_iff_exists.mp hfound
    exact Work.runs_log_bind (Work.runs_pure ⟨rfl, e, hfind⟩)
  · rename_i hfound
    rw [Bool.not_eq_true, Option.isSome_eq_false_iff, Option.isNone_iff_eq_none] at hfound
    subst hfound
    refine Work.runs_bind (hcopy.mono fun e d' hwrote => ?_)
    cases e with
    | ok _ =>
      refine Work.runs_log_bind (Work.runs_pure ⟨rfl, hfind, ?_⟩)
      rw [← Place.named_text hnormal, ← congrArg FilePath.parent (FilePath.ofString_text hnormal)]
      exact hwrote
    | error m =>
      show Grows [] p.parent.reach d d'
      rw [← congrArg FilePath.parent (FilePath.ofString_text hnormal)]
      exact hwrote

theorem runs_writeSource {system : System} {path content : String} {retries : Int} {d : Disk} :
    (writeSource path content retries).Runs system d (Wrote path (· = content.toUTF8) d) :=
  runs_retrying_wrote (Q := fun _ b => b = content.toUTF8) (fun a d₁ => wrote_writeFile a d₁ path content.toUTF8)
    fun _ _ _ hb => hb

end FluentShift.Files
