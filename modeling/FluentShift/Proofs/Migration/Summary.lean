import FluentShift.Proofs.Migration.Targets

/-!
# FluentShift.Proofs.Migration.Summary - what a list of files comes to

Files of a list are migrated in turn, each once, in the order in which they are first named.  Either the first one that
fails ends the list, and no file after it is touched (`StoppedAt`), or all of them are told apart by what they came to
(`WorkedThrough`).  This holds whatever the files come to (`migrateFiles_summarises`), as long as each of them comes to a
result; a file does so if nothing is wrong with the settings and its path is not too long (`always_migrateFile`).
-/

namespace FluentShift.Migration

open FluentShift.Files FluentShift.Engine FluentShift.Types

/-! ### Each file once -/

/-- The files of a list without repetitions, in the order in which they are first named. -/
structure FirstNamed (files sources : List String) : Prop where
  nodup : files.Nodup
  mem : ∀ p, p ∈ files ↔ p ∈ sources
  ordered : files.Pairwise fun p q => sources.idxOf p < sources.idxOf q

/-- What is kept of a list stays in order. -/
theorem idxOf_lt_of_filter {keep : String → Bool} {ss : List String} {p q : String} (hp : keep p = true)
    (hq : keep q = true) (h : (ss.filter keep).idxOf p < (ss.filter keep).idxOf q) : ss.idxOf p < ss.idxOf q := by
  induction ss with
  | nil => exact h
  | cons s ss ih =>
    cases hs : keep s with
    | false =>
      have hne : ∀ {x}, keep x = true → s ≠ x := by
        rintro x hx rfl
        rw [hs] at hx
        cases hx
      rw [List.filter_cons_of_neg (by simp [hs])] at h
      rw [List.idxOf_cons_ne _ (hne hp), List.idxOf_cons_ne _ (hne hq)]
      exact Nat.succ_lt_succ (ih h)
    | true =>
      rw [List.filter_cons_of_pos hs] at h
      by_cases hq' : s = q
      · rw [hq', List.idxOf_cons_self] at h
        exact absurd h (Nat.not_lt_zero _)
      rw [List.idxOf_cons_ne _ hq'] at h ⊢
      by_cases hp' : s = p
      · rw [hp', List.idxOf_cons_self]
        exact Nat.succ_pos _
      · rw [List.idxOf_cons_ne _ hp'] at h ⊢
        exact Nat.succ_lt_succ (ih (Nat.lt_of_succ_lt_succ h))

theorem pairwise_eraseDups : ∀ ss : List String, ss.eraseDups.Pairwise fun p q => ss.idxOf p < ss.idxOf q
  | [] => .nil
  | s :: ss => by
    have hkept : ∀ {p}, p ∈ (ss.filter fun x => !x == s).eraseDups → (!p == s) = true := fun hp =>
      (List.mem_filter.mp (List.mem_eraseDups.mp hp)).2
    have hne : ∀ {p}, p ∈ (ss.filter fun x => !x == s).eraseDups → s ≠ p := by
      rintro p hp rfl
      simpa using hkept hp
    rw [List.eraseDups_cons, List.pairwise_cons]
    refine ⟨fun p hp => ?_, (pairwise_eraseDups (ss.filter fun x => !x == s)).imp_of_mem fun {p q} hp hq h => ?_⟩
    · rw [List.idxOf_cons_self, List.idxOf_cons_ne _ (hne hp)]
      exact Nat.succ_pos _
    · rw [List.idxOf_cons_ne _ (hne hp), List.idxOf_cons_ne _ (hne hq)]
      exact Nat.succ_lt_succ (idxOf_lt_of_filter (hkept hp) (hkept hq) h)
termination_by ss => ss.length
decreasing_by exact Nat.lt_succ_of_le (List.length_filter_le _ _)

theorem firstNamed_eraseDups (ss : List String) : FirstNamed ss.eraseDups ss :=
  ⟨nodup_eraseDups ss, fun _ => List.mem_eraseDups, pairwise_eraseDups ss⟩

/-! ### Attempts that come to something -/

/-- An attempt that begins in one session comes to something and ends in another. -/
def Attempt.Yields {α : Type} (a : Attempt α) (s : Session) (x : α) (s' : Session) : Prop :=
  StateT.run a.run s = (.ok x, s')

/-- An attempt comes to something, whatever session it begins in. -/
def Attempt.Always {α : Type} (a : Attempt α) : Prop := ∀ s, ∃ x s', a.Yields s x s'

section Attempts

variable {α β : Type}

theorem Attempt.Yields.bind {a : Attempt β} {f : β → Attempt α} {x : β} {y : α} {s s₁ s' : Session}
    (h : a.Yields s x s₁) (h' : (f x).Yields s₁ y s') : (a >>= f).Yields s y s' := by
  unfold Attempt.Yields at *
  rw [ExceptT.run_bind, StateT.run_bind, h]
  exact h'

theorem always_pure (x : α) : (pure x : Attempt α).Always := fun s => ⟨x, s, rfl⟩

theorem Attempt.Always.bind {a : Attempt β} {f : β → Attempt α} (h : a.Always) (h' : ∀ x, (f x).Always) :
    (a >>= f).Always := by
  intro s
  obtain ⟨x, s₁, hx⟩ := h s
  obtain ⟨y, s', hy⟩ := h' x s₁
  exact ⟨y, s', hx.bind hy⟩

theorem always_lift (a : Act α) : (liftM a : Attempt α).Always := fun _ => ⟨_, _, rfl⟩

theorem always_session {f : Session → Attempt α} (h : ∀ s, (f s).Always) : (getThe Session >>= f : Attempt α).Always :=
  fun s => h s s

end Attempts

/-! ### One file -/

/-- Neither a path nor a name in it is too long for the system. -/
structure IsShort (path : String) : Prop where
  whole : path.utf8ByteSize ≤ Disk.longestPath
  names : ∀ name ∈ Text.split '/' path, name.utf8ByteSize ≤ Disk.longestName

instance (path : String) : Decidable (IsShort path) :=
  decidable_of_iff (path.utf8ByteSize ≤ Disk.longestPath ∧
    ∀ name ∈ Text.split '/' path, name.utf8ByteSize ≤ Disk.longestName) ⟨fun h => ⟨h.1, h.2⟩, fun h => ⟨h.whole, h.names⟩⟩

section File

variable {d : Disk} {c : Config} {path : String}

theorem walk_ne_tooLong {spot : Disk.Spot} {names : List String} (h : ∀ name ∈ names, name.utf8ByteSize ≤ Disk.longestName) :
    d.walk spot names ≠ .error .tooLong := by
  induction names generalizing spot with
  | nil => simp [Disk.walk]
  | cons name names ih =>
    have ih := fun spot => @ih spot fun name hname => h name (List.mem_cons_of_mem _ hname)
    cases spot with
    | free p => simp [Disk.walk]
    | found p e =>
      cases e with
      | file b => simp [Disk.walk]
      | directory =>
        rw [Disk.walk, if_neg (Nat.not_lt.mpr (h name List.mem_cons_self))]
        split
        · exact ih _
        split
        · exact ih _
        split <;> exact ih _

/-- The system looks for whatever has a short path. -/
theorem find_of_isShort (h : IsShort path) : ∃ e, d.find path = .ok e := by
  have hlook : d.look path ≠ .error .tooLong := by
    rw [Disk.look, if_neg (Nat.not_lt.mpr h.whole)]
    split
    · simp
    · exact walk_ne_tooLong h.names
  rw [Disk.find]
  split
  · exact ⟨_, rfl⟩
  · rename_i hlong
    exact absurd hlong hlook
  · exact ⟨_, rfl⟩

/-- A source with a short path that is refused is refused as a path. -/
theorem path_of_validateSource {source : String} {f : Failure} (hshort : IsShort (FilePath.ofString source).text)
    (h : validateSource d source = .error f) : ∃ message kind, f = .path message source kind := by
  obtain ⟨e, he⟩ := find_of_isShort (d := d) hshort
  rw [validateSource, he] at h
  split at h
  · exact ⟨_, _, (Except.error.inj h).symm⟩
  · cases e with
    | none => exact ⟨_, _, (Except.error.inj h).symm⟩
    | some e =>
      cases e with
      | file b => cases h
      | directory => exact ⟨_, _, (Except.error.inj h).symm⟩

/-- Migrating a file comes to a result, if the largest size is a number, there is a path for the target, and the path of
the file is short. -/
theorem always_migrateFile (tools : Tools) (runId : String) {source : String} {n : Int × Nat} {t : FilePath}
    (hlimit : (c.value .sizeLimit).decimal? = some n) (htarget : c.targetPath source = .ok t)
    (hshort : IsShort (FilePath.ofString source).text) : (migrateFile tools c runId source).Always := by
  have htext : ∀ path code, path = FilePath.ofString source → (migrateText tools c runId source path code).Always := by
    rintro path code rfl
    have hcontext : Context.create (FilePath.ofString source).text none c none runId =
        .ok ⟨(FilePath.ofString source).text, t.text, c, runId, []⟩ := by
      rw [Context.create, targetPath_text, htarget]
      rfl
    rw [migrateText, hcontext]
    exact (always_pure _).bind fun _ => (always_lift _).bind fun _ => (always_lift _).bind fun _ => always_pure _
  refine always_session fun s => ?_
  dsimp only
  split
  · exact always_pure _
  · rename_i f hother hvalid
    obtain ⟨message, kind, rfl⟩ := path_of_validateSource hshort hvalid
    exact absurd rfl (hother message source kind)
  · rename_i path hpath
    obtain rfl := eq_of_validateSource hpath
    rw [isTooLarge, hlimit]
    refine (always_pure _).bind fun large => ?_
    split
    · exact always_pure _
    refine (always_lift _).bind fun answer => ?_
    split
    · exact (always_lift _).bind fun _ => always_pure _
    · exact htext _ _ rfl

end File

/-! ### Files in turn -/

/-- Files come to results one after the other, each in the session that the one before it left. -/
inductive InTurn (migrate : String → Attempt (Result Payload)) :
    Session → List (String × Result Payload) → Session → Prop
  | nil (s : Session) : InTurn migrate s [] s
  | cons {s s₁ s₂ : Session} {p : String} {r : Result Payload} {rs : List (String × Result Payload)}
      (first : (migrate p).Yields s r s₁) (rest : InTurn migrate s₁ rs s₂) : InTurn migrate s ((p, r) :: rs) s₂

/-- Every file of a list comes to a result, whenever it is migrated. -/
def AllYield (migrate : String → Attempt (Result Payload)) (sources : List String) : Prop :=
  ∀ p ∈ sources, (migrate p).Always

/-- The session with more lines in its log. -/
def logged (s : Session) (lines : Log) : Session := { s with desk := { s.desk with log := s.desk.log ++ lines } }

/-- The configuration asks for one file after the other, or there are not several files. -/
def InSequence (c : Config) (sources : List String) : Prop :=
  ∃ atOnce, c.isConcurrent = .ok atOnce ∧ (atOnce = true → sources.eraseDups.length ≤ 1)

section InTurn

variable {migrate : String → Attempt (Result Payload)} {goOn : Bool} {done : List (String × Result Payload)} {p : String}
  {ps : List String} {r : Result Payload} {b : Batch} {s s₁ s' : Session}

/-- A file that fails ends a list that does not go on regardless. -/
theorem yields_inOrder_stop (hr : (migrate p).Yields s r s₁) (hfailed : r.isError = true) :
    (migrateInOrder migrate false done (p :: ps)).Yields s ⟨stopped p r, done ++ [(p, r)]⟩ s₁ := by
  rw [migrateInOrder]
  refine hr.bind ?_
  rw [if_pos (by simpa using hfailed)]
  rfl

/-- After any other file the rest of the list is migrated. -/
theorem yields_inOrder_step (hr : (migrate p).Yields s r s₁) (hclean : goOn = false → r.isError = false)
    (hrest : (migrateInOrder migrate goOn (done ++ [(p, r)]) ps).Yields s₁ b s') :
    (migrateInOrder migrate goOn done (p :: ps)).Yields s b s' := by
  rw [migrateInOrder]
  refine hr.bind ?_
  rw [if_neg]
  · exact hrest
  · cases goOn with
    | true => simp
    | false => simpa using hclean rfl

/-- How files of a list go on after the results `done`: all of them come to results, or a failure ends the list. -/
theorem exists_inTurn (goOn : Bool) {todo : List String} (h : AllYield migrate todo)
    (done : List (String × Result Payload)) (s : Session) : ∃ rs s₁, InTurn migrate s rs s₁ ∧
      ((rs.map (·.1) = todo ∧ (goOn = false → ∀ e ∈ rs, e.2.isError = false) ∧
          (migrateInOrder migrate goOn done todo).Yields s ⟨summary (done ++ rs), done ++ rs⟩
            (logged s₁ [⟨.info, summaryLine (done ++ rs)⟩])) ∨
        ∃ before p r, goOn = false ∧ rs = before ++ [(p, r)] ∧ (∀ e ∈ before, e.2.isError = false) ∧
          r.isError = true ∧ rs.map (·.1) <+: todo ∧
          (migrateInOrder migrate goOn done todo).Yields s ⟨stopped p r, done ++ rs⟩ s₁) := by
  -- by induction on the files that are left; each one adds its result to those that are there
  induction todo generalizing done s with
  | nil =>
    refine ⟨[], s, .nil s, .inl ⟨rfl, fun _ _ he => absurd he List.not_mem_nil, ?_⟩⟩
    rw [List.append_nil]
    rfl
  | cons p ps ih =>
    obtain ⟨r, s₁, hr⟩ := h p List.mem_cons_self s
    by_cases hclean : goOn = false → r.isError = false
    · obtain ⟨rs, s₂, hturn, hend⟩ := ih (fun q hq => h q (List.mem_cons_of_mem _ hq)) (done ++ [(p, r)]) s₁
      rw [List.append_assoc] at hend
      refine ⟨(p, r) :: rs, s₂, .cons hr hturn, hend.imp ?_ ?_⟩
      · rintro ⟨hkeys, hnone, hrun⟩
        refine ⟨by rw [List.map_cons, hkeys], fun hoff => ?_, yields_inOrder_step hr hclean hrun⟩
        exact List.forall_mem_cons.mpr ⟨hclean hoff, hnone hoff⟩
      · rintro ⟨before, q, r', hoff, rfl, hbefore, hfailed, hkeys, hrun⟩
        exact ⟨(p, r) :: before, q, r', hoff, rfl, List.forall_mem_cons.mpr ⟨hclean hoff, hbefore⟩, hfailed,
          List.cons_prefix_cons.mpr ⟨rfl, hkeys⟩, yields_inOrder_step hr hclean hrun⟩
    · obtain ⟨rfl, hfailed⟩ := Classical.not_imp.mp hclean
      rw [Bool.not_eq_false] at hfailed
      exact ⟨[(p, r)], s₁, .cons hr (.nil s₁), .inr ⟨[], p, r, rfl, rfl, fun _ he => absurd he List.not_mem_nil, hfailed,
        ⟨ps, rfl⟩, yields_inOrder_stop hr hfailed⟩⟩

end InTurn

/-! ### The end of a list -/

/-- A list of files stopped at one that failed: it has the results up to that one, of which no other failed. -/
structure StoppedAt (files : List String) (p : String) (r : Result Payload) (b : Batch) : Prop where
  start : b.files.map (·.1) <+: files
  first : ∃ before, b.files = before ++ [(p, r)] ∧ ∀ e ∈ before, e.2.isError = false
  failed : r.isError = true
  result : b.result =
    .failure (r.error.getD (.mishap .state ("Migration failed for " ++ p))) [("failed_file", .text p)]

/-- A list of files was worked through: it has a result for every file, and tells apart those that failed, those that were
passed over and those that were migrated. -/
structure WorkedThrough (files : List String) (b : Batch) (failed skipped : List String)
    (migrated : List (String × Result Payload)) : Prop where
  keys : b.files.map (·.1) = files
  failedOrder : failed.Sublist files
  skippedOrder : skipped.Sublist files
  migratedOrder : migrated.Sublist b.files
  classes : ∀ e ∈ b.files, (e.1 ∈ failed ↔ e.2.status = .error) ∧ (e.1 ∈ skipped ↔ e.2.status = .skipped) ∧
    (e ∈ migrated ↔ e.2.status = .success ∨ e.2.status = .warning)
  data : b.result.data = some (migrated.map fun e => dataText e.2)
  status : b.result.status = if failed = [] then .success else .warning
  listed : files ≠ [] → b.result.metadata = [("failed_files", .ofTexts failed), ("skipped_files", .ofTexts skipped)]

/-- What a list of files comes to, from one session to another: its files were migrated in turn, up to the first one that
failed unless the list goes on regardless. -/
def Summarises (migrate : String → Attempt (Result Payload)) (goOn : Bool) (sources : List String) (s : Session)
    (b : Batch) (s' : Session) : Prop :=
  ∃ files s₁, FirstNamed files sources ∧ InTurn migrate s b.files s₁ ∧
    ((goOn = false ∧ s' = s₁ ∧ ∃ p r, StoppedAt files p r b) ∨
      ((goOn = false → ∀ e ∈ b.files, e.2.isError = false) ∧ (∃ lines, s' = logged s₁ lines) ∧
        ∃ failed skipped migrated, WorkedThrough files b failed skipped migrated))

section Classes

variable {rs : List (String × Result Payload)}

/-- The names of results that are picked are the names of those and no others, since each name is there once. -/
theorem mem_names_filter_iff {pick : String × Result Payload → Bool} (hnodup : (rs.map (·.1)).Nodup)
    {e : String × Result Payload} (he : e ∈ rs) : e.1 ∈ (rs.filter pick).map (·.1) ↔ pick e = true := by
  constructor
  · intro hmem
    obtain ⟨e', he', heq⟩ := List.mem_map.mp hmem
    obtain ⟨hin, hpick⟩ := List.mem_filter.mp he'
    rwa [← List.inj_on_of_nodup_map hnodup hin he heq]
  · exact fun hpick => List.mem_map_of_mem (List.mem_filter.mpr ⟨he, hpick⟩)

theorem workedThrough_summary (hnodup : (rs.map (·.1)).Nodup) : WorkedThrough (rs.map (·.1)) ⟨summary rs, rs⟩
    (failedFiles rs) (skippedFiles rs) (rs.filter fun e => e.2.isOk) where
  keys := rfl
  failedOrder := List.filter_sublist.map _
  skippedOrder := List.filter_sublist.map _
  migratedOrder := List.filter_sublist
  classes e he := by
    refine ⟨?_, ?_, ?_⟩
    · exact (mem_names_filter_iff hnodup he).trans decide_eq_true_iff
    · exact (mem_names_filter_iff hnodup he).trans decide_eq_true_iff
    · rw [List.mem_filter, Result.isOk, Bool.or_eq_true, decide_eq_true_iff, decide_eq_true_iff]
      exact and_iff_right he
  data := by rw [summary_data, targets_eq]
  status := by
    rw [summary]
    split
    · rename_i hnone
      rw [if_pos hnone]
      rfl
    · rename_i hsome
      rw [if_neg hsome]
      rfl
  listed _ := by
    rw [summary]
    split <;> rfl

theorem workedThrough_nil : WorkedThrough [] ⟨.success [] [], []⟩ [] [] [] where
  keys := rfl
  failedOrder := .refl _
  skippedOrder := .refl _
  migratedOrder := .refl _
  classes _ he := absurd he List.not_mem_nil
  data := rfl
  status := rfl
  listed h := absurd rfl h

end Classes

/-- A list of files whose every file comes to a result comes to one that summarises them, when they are migrated one after
the other. -/
theorem summarises_migrateListed {migrate : String → Attempt (Result Payload)} {c : Config} {sources : List String}
    (pool : Pool) (hsequence : sources ≠ [] → InSequence c sources) (h : AllYield migrate sources) (s : Session) :
    ∃ b s', (migrateListed migrate pool c sources).Yields s b s' ∧
      Summarises migrate (c.isOn .continueOnError) sources s b s' := by
  have hfirst := firstNamed_eraseDups sources
  by_cases hnone : sources = []
  · subst hnone
    exact ⟨⟨.success [] [], []⟩, s, rfl, [], s, hfirst, .nil s, .inr ⟨fun _ _ he => absurd he List.not_mem_nil,
      ⟨[], by simp [logged]⟩, [], [], [], workedThrough_nil⟩⟩
  obtain ⟨atOnce, hatOnce, hfew⟩ := hsequence hnone
  have hsome : ¬sources.eraseDups.isEmpty = true := by
    obtain ⟨p, hp⟩ := List.exists_mem_of_ne_nil sources hnone
    rw [List.isEmpty_iff]
    exact List.ne_nil_of_mem (List.mem_eraseDups.mpr hp)
  have hrun : migrateListed migrate pool c sources =
      migrateInOrder migrate (c.isOn .continueOnError) [] sources.eraseDups := by
    have hmode : ¬(atOnce && decide (1 < sources.eraseDups.length)) = true := by
      rw [Bool.and_eq_true, decide_eq_true_iff, not_and, not_lt]
      exact hfew
    rw [migrateListed, if_neg hsome, hatOnce]
    exact if_neg hmode
  rw [hrun]
  obtain ⟨rs, s₁, hturn, ⟨hkeys, hclean, hend⟩ | ⟨before, p, r, hoff, rfl, hbefore, hfailed, hkeys, hend⟩⟩ :=
    exists_inTurn (c.isOn .continueOnError) (fun p hp => h p (List.mem_eraseDups.mp hp)) [] s
  · refine ⟨_, _, hend, sources.eraseDups, s₁, hfirst, hturn, .inr ⟨hclean, ⟨_, rfl⟩, failedFiles rs, skippedFiles rs,
      rs.filter fun e => e.2.isOk, ?_⟩⟩
    rw [← hkeys]
    exact workedThrough_summary (hkeys ▸ hfirst.nodup)
  · exact ⟨_, _, hend, sources.eraseDups, s₁, hfirst, hturn, .inl ⟨hoff, rfl, p, r, hkeys, ⟨before, rfl, hbefore⟩,
      hfailed, rfl⟩⟩

/-- A list of files that are migrated one after the other comes to what `Summarises` says, whatever its files come to, and
also when they are really migrated. -/
theorem migrateFiles_summarises (tools : Tools) {c : Config} (runId : String) {sources : List String}
    (hsequence : sources ≠ [] → InSequence c sources) (s : Session) :
    (∀ migrate, AllYield migrate sources → ∃ b s', (migrateListed migrate tools.pool c sources).Yields s b s' ∧
        Summarises migrate (c.isOn .continueOnError) sources s b s') ∧
      (AllYield (migrateFile tools c runId) sources → ∃ b s', (migrateFiles tools c runId sources).Yields s b s' ∧
        Summarises (migrateFile tools c runId) (c.isOn .continueOnError) sources s b s') :=
  ⟨fun _ h => summarises_migrateListed tools.pool hsequence h s, fun h => summarises_migrateListed tools.pool hsequence h s⟩

/-- A way to migrate a file that only names it in the log: one file fails and one is passed over. -/
def scripted (source : String) : Attempt (Result Payload) := do
  Act.log .info source
  return match source with
    | "bad.py" => .failure (.mishap .value "no such call") []
    | "big.py" => .skipped (.text "too large") []
    | _ => .success (textPayload source) []

/-- Five files, one of them twice. -/
def scriptedFiles : List String := ["a.py", "big.py", "a.py", "bad.py", "b.py"]

theorem summarises_scriptedFiles : ∃ b s s' b₁ s₁,
    (migrateListed scripted Tools.standard.pool .standard scriptedFiles).Yields s b s' ∧ Summarises scripted false scriptedFiles s b s' ∧
      b.files.map (·.1) = ["a.py", "big.py", "bad.py"] ∧
      (migrateFiles .standard .standard "run" scriptedFiles).Yields s b₁ s₁ ∧
      Summarises (migrateFile .standard .standard "run") false scriptedFiles s b₁ s₁ := by
  have hsequence : scriptedFiles ≠ [] → InSequence .standard scriptedFiles := fun _ => ⟨false, rfl, nofun⟩
  obtain ⟨hlisted, hfiles⟩ :=
    migrateFiles_summarises .standard "run" hsequence ⟨.start .calm markedDisk, [], false⟩
  obtain ⟨b, s', hrun, hsummary⟩ := hlisted scripted fun p _ => (always_lift _).bind fun _ => always_pure _
  obtain ⟨b₁, s₁, hrun₁, hsummary₁⟩ := hfiles fun p hp => by
    have hshort : ∀ p ∈ scriptedFiles, IsShort (FilePath.ofString p).text := by decide
    exact always_migrateFile .standard "run" rfl rfl (hshort p hp)
  refine ⟨b, _, s', b₁, s₁, hrun, hsummary, ?_, hrun₁, hsummary₁⟩
  have hkeys : (StateT.run (migrateListed scripted Tools.standard.pool .standard scriptedFiles).run
      ⟨.start .calm markedDisk, [], false⟩).1.map (fun b => b.files.map (·.1)) = .ok ["a.py", "big.py", "bad.py"] := by rfl
  rw [hrun] at hkeys
  exact Except.ok.inj hkeys

end FluentShift.Migration
