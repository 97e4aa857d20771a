import FluentShift.Proofs.Migration.File

/-!
# FluentShift.Proofs.Migration.Batch - lists of files

A list of files is worked on one after the other, or in the turns of a pool.  What one more file preserves holds when the
list has ended (`runs_migrateListed`), however many of its files were worked on by then and in whatever order.  `Ends` says
how a list ends, from what has come of its files.
-/

namespace FluentShift.Migration

open FluentShift.Files FluentShift.Engine

variable {c : Config} {migrate : String → Attempt (Result Payload)} {holds : Worked → Disk → Prop}
  {sources order ss : List String} {done : Worked} {rs : List (String × Result Payload)} {system : System} {d : Disk}
  {s : String}

/-! ### How a list ends -/

/-- The results are those of files that were worked on. -/
def Seen (rs : List (String × Result Payload)) (done : Worked) : Prop := ∀ e ∈ rs, (e.1, .ok e.2) ∈ done

/-- How a list of files ends, each named once, that looks at their results in an order. -/
inductive Ends (c : Config) (sources order : List String) (done : Worked) : Except Failure Batch → Prop
  | empty (none : sources = []) : Ends c sources order done (.ok ⟨.success [] [], []⟩)
  | undecided {f : Failure} (unclear : c.isConcurrent = .error f) : Ends c sources order done (.error f)
  | thrown {s : String} {f : Failure} (worked : (s, .error f) ∈ done) : Ends c sources order done (.error f)
  | broken {rs : List (String × Result Payload)} {s : String} {r : Result Payload}
      (off : c.isOn .continueOnError = false) (failed : r.isError = true) (seen : Seen (rs ++ [(s, r)]) done)
      (names : (rs ++ [(s, r)]).map (·.1) <+: order) :
      Ends c sources order done (.ok ⟨stopped s r, rs ++ [(s, r)]⟩)
  | finished {rs : List (String × Result Payload)} (seen : Seen rs done) (names : rs.map (·.1) = order) :
      Ends c sources order done (.ok ⟨summary (inOrderOf sources rs), rs⟩)

/-- A list has come to an answer: some of its files were worked on, each once, what holds of them holds, and the answer is
how the list ends with them. -/
def CameTo (c : Config) (sources order : List String) (holds : Worked → Disk → Prop) (answer : Except Failure Batch)
    (d : Disk) : Prop :=
  ∃ done, holds done d ∧ (done.map (·.1)).Nodup ∧ done.map (·.1) ⊆ sources ∧ Ends c sources order done answer

/-- Migrating one more file of a list under a system preserves what holds. -/
def Preserves (system : System) (migrate : String → Attempt (Result Payload)) (sources : List String)
    (holds : Worked → Disk → Prop) : Prop :=
  ∀ done d s, holds done d → s ∈ sources → s ∉ done.map (·.1) →
    Act.Runs system (migrate s).run d fun answer d' => holds (done ++ [(s, answer)]) d'

theorem Seen.mono {done' : Worked} (h : Seen rs done) (hsub : done ⊆ done') : Seen rs done' := fun e he => hsub (h e he)

theorem Seen.concat {r : Result Payload} (h : Seen rs done) (hr : (s, .ok r) ∈ done) : Seen (rs ++ [(s, r)]) done := by
  intro e he
  rcases List.mem_append.mp he with he | he
  · exact h e he
  · rw [List.mem_singleton.mp he]
    exact hr

theorem lookup_of_mem {α : Type} {es : List (String × α)} (h : s ∈ es.map (·.1)) :
    ∃ x, es.lookup s = some x ∧ (s, x) ∈ es := by
  induction es with
  | nil => exact absurd h List.not_mem_nil
  | cons e es ih =>
    obtain ⟨s', x⟩ := e
    by_cases heq : s = s'
    · subst heq
      exact ⟨x, List.lookup_cons_self, List.mem_cons_self⟩
    · obtain ⟨y, hy, hmem⟩ := ih ((List.mem_cons.mp h).resolve_left heq)
      exact ⟨y, (Disk.lookup_cons_of_ne heq).trans hy, List.mem_cons_of_mem _ hmem⟩

/-- Results that have the order of the sources stay as they are. -/
theorem inOrderOf_self (h : (rs.map (·.1)).Nodup) : inOrderOf (rs.map (·.1)) rs = rs := by
  have hprefix : ∀ before after : List (String × Result Payload), ((before ++ after).map (·.1)).Nodup →
      inOrderOf (after.map (·.1)) (before ++ after) = after := by
    intro before after
    induction after generalizing before with
    | nil => exact fun _ => rfl
    | cons e after ih =>
      intro hnodup
      have hlookup : (before ++ e :: after).lookup e.1 = some e.2 := by
        rw [List.lookup_append, List.lookup_eq_none_iff.mpr fun x hx => ?_, Option.none_or, List.lookup_cons_self]
        rw [List.map_append] at hnodup
        have hne : x.1 ≠ e.1 :=
          (List.nodup_append.mp hnodup).2.2 x.1 (List.mem_map_of_mem hx) e.1 List.mem_cons_self
        simpa using hne.symm
      rw [inOrderOf, List.map_cons, List.filterMap_cons_some (by rw [hlookup]; rfl)]
      have hrest := ih (before ++ [e]) (by rwa [List.append_assoc, List.singleton_append])
      rw [List.append_assoc, List.singleton_append] at hrest
      exact congrArg (e :: ·) hrest
  exact hprefix [] rs h

/-- Results of all sources, in whatever order, are the same ones in the order of the sources. -/
theorem inOrderOf_perm (h : (rs.map (·.1)).Perm sources) (hnodup : sources.Nodup) : (inOrderOf sources rs).Perm rs := by
  have hsame := inOrderOf_self (h.nodup_iff.mpr hnodup)
  exact (h.symm.filterMap _).trans (List.Perm.of_eq hsame)

/-! ### One after the other -/

/-- Files that are left are worked on, whatever becomes of them. -/
theorem runs_workOff (h : Preserves system migrate sources holds) (hdone : holds done d)
    (hsub : done.map (·.1) ++ ss ⊆ sources) (hnodup : (done.map (·.1) ++ ss).Nodup) :
    Act.Runs system (workOff migrate ss) d fun _ d' =>
      ∃ done', holds done' d' ∧ done ⊆ done' ∧ done'.map (·.1) = done.map (·.1) ++ ss := by
  induction ss generalizing done d with
  | nil => exact Act.runs_pure ⟨done, hdone, List.Subset.refl _, (List.append_nil _).symm⟩
  | cons s ss ih =>
    have hnew : s ∉ done.map (·.1) := fun hmem => (List.nodup_append.mp hnodup).2.2 s hmem s List.mem_cons_self rfl
    have hs : s ∈ sources := hsub (List.mem_append_right _ List.mem_cons_self)
    refine Act.runs_bind ((h done d s hdone hs hnew).mono fun answer d₁ hstep => ?_)
    have hnames : done.map (·.1) ++ s :: ss = (done ++ [(s, answer)]).map (·.1) ++ ss := by simp
    rw [hnames] at hsub hnodup ⊢
    refine (ih hstep hsub hnodup).mono fun _ d₂ hrest => ?_
    obtain ⟨done', hdone', hmore, hnames'⟩ := hrest
    exact ⟨done', hdone', List.Subset.trans (List.subset_append_left _ _) hmore, hnames'⟩

/-- Files that are worked on one after the other, after those with the results `rs`. -/
theorem runs_inOrder_after (h : Preserves system migrate sources holds) (hdone : holds (rs.map fun e => (e.1, .ok e.2)) d)
    (hnames : rs.map (·.1) ++ ss = sources) (hnodup : sources.Nodup) :
    Act.Runs system (migrateInOrder migrate (c.isOn .continueOnError) rs ss).run d (CameTo c sources sources holds) := by
  have hkeys : ∀ rs : List (String × Result Payload),
      (rs.map fun e => (e.1, (.ok e.2 : Except Failure (Result Payload)))).map (·.1) = rs.map (·.1) := fun rs => by
    rw [List.map_map]
    rfl
  -- in this mode every finished result is seen, in the order of the files
  have hseen : ∀ rs : List (String × Result Payload), Seen rs (rs.map fun e => (e.1, .ok e.2)) :=
    fun rs e he => List.mem_map_of_mem he
  induction ss generalizing rs d with
  | nil =>
    rw [List.append_nil] at hnames
    refine runs_attempt_bind (runs_attempt_lift (Act.runs_log (Act.runs_pure ⟨_, hdone, ?_, ?_, ?_⟩)))
    · rwa [hkeys, hnames]
    · rw [hkeys, hnames]
      exact List.Subset.refl _
    · have hfinished : Ends c sources sources (rs.map fun e => (e.1, .ok e.2)) _ := .finished (hseen rs) hnames
      rwa [← hnames, inOrderOf_self (hnames.symm ▸ hnodup), hnames] at hfinished
  | cons s ss ih =>
    have hbelow : rs.map (·.1) ++ [s] <+: sources := ⟨ss, by rw [← hnames, List.append_assoc, List.singleton_append]⟩
    have hnodup' : (rs.map (·.1) ++ [s]).Nodup := hnodup.sublist hbelow.sublist
    have hnew : s ∉ rs.map (·.1) := fun hmem =>
      (List.nodup_append.mp hnodup').2.2 s hmem s (List.mem_singleton_self s) rfl
    have hs : s ∈ sources := hbelow.subset (List.mem_append_right _ (List.mem_singleton_self s))
    refine runs_attempt_bind ((h _ d s hdone hs (by rwa [hkeys])).mono fun answer d₁ hstep => ?_)
    cases answer with
    -- what is raised ends the run there, with the file among those worked on
    | error f =>
      have hworked : (s, (.error f : Except Failure (Result Payload))) ∈
          (rs.map fun e => (e.1, .ok e.2)) ++ [(s, .error f)] := List.mem_append_right _ (List.mem_singleton_self _)
      refine ⟨_, hstep, ?_, ?_, .thrown hworked⟩
      · rwa [List.map_append, hkeys]
      · rw [List.map_append, hkeys]
        exact hbelow.subset
    | ok r =>
      have hdone' : holds ((rs ++ [(s, r)]).map fun e => (e.1, .ok e.2)) d₁ := by rwa [List.map_append]
      have hname : (rs ++ [(s, r)]).map (·.1) = rs.map (·.1) ++ [s] := List.map_append
      dsimp only
      split
      · -- a failure ends the run unless the configuration goes on after it
        rename_i hstop
        rw [Bool.and_eq_true, Bool.not_eq_true'] at hstop
        refine Act.runs_pure ⟨_, hdone', ?_, ?_, .broken hstop.2 hstop.1 (hseen _) ?_⟩
        · rwa [hkeys, hname]
        · rw [hkeys, hname]
          exact hbelow.subset
        · rwa [hname]
      · exact ih hdone' (by rw [hname, List.append_assoc, List.singleton_append, hnames])

/-- Files that are worked on one after the other. -/
theorem runs_inOrder (h : Preserves system migrate sources holds) (hstart : holds [] d) (hnodup : sources.Nodup) :
    Act.Runs system (migrateInOrder migrate (c.isOn .continueOnError) [] sources).run d
      (CameTo c sources sources holds) :=
  have hstart' : holds (([] : List (String × Result Payload)).map fun e => (e.1, .ok e.2)) d := hstart
  runs_inOrder_after h hstart' rfl hnodup

/-! ### In a pool -/

/-- How far a pool has come with the files `sources`, whose results are looked at in an order: `turns` are left. -/
structure Turning (sources order : List String) (done : Worked) (rs : List (String × Result Payload)) (turns : List Turn) :
    Prop where
  nodup : (done.map (·.1) ++ Turn.worked turns).Nodup
  subset : done.map (·.1) ++ Turn.worked turns ⊆ sources
  looked : rs.map (·.1) ++ Turn.looked turns = order
  seen : Seen rs done
  after : ∀ before s rest, turns = before ++ .look s :: rest → .work s ∈ before ∨ s ∈ done.map (·.1)

namespace Turning

variable {turns : List Turn}

theorem start (h : IsSchedule sources turns) (hnodup : sources.Nodup) :
    Turning sources (Turn.looked turns) [] [] turns where
  nodup := h.worked.nodup_iff.mpr hnodup
  subset := h.worked.subset
  looked := rfl
  seen _ he := absurd he List.not_mem_nil
  after before s rest heq := .inl (h.after before s rest heq)

theorem work {answer : Except Failure (Result Payload)} (h : Turning sources order done rs (.work s :: turns)) :
    Turning sources order (done ++ [(s, answer)]) rs turns := by
  have hnames : done.map (·.1) ++ Turn.worked (.work s :: turns) =
      (done ++ [(s, answer)]).map (·.1) ++ Turn.worked turns := by
    rw [List.map_append, List.append_assoc]
    rfl
  refine ⟨hnames ▸ h.nodup, hnames ▸ h.subset, h.looked, h.seen.mono (List.subset_append_left _ _),
    fun before s' rest heq => ?_⟩
  rcases h.after (.work s :: before) s' rest (congrArg (Turn.work s :: ·) heq) with hmem | hmem
  · rcases List.mem_cons.mp hmem with hsame | hmem
    · cases hsame
      exact .inr (by rw [List.map_append]; exact List.mem_append_right _ (List.mem_singleton_self s))
    · exact .inl hmem
  · exact .inr (by rw [List.map_append]; exact List.mem_append_left _ hmem)

theorem look {r : Result Payload} (h : Turning sources order done rs (.look s :: turns)) (hr : (s, .ok r) ∈ done) :
    Turning sources order done (rs ++ [(s, r)]) turns := by
  refine ⟨h.nodup, h.subset, ?_, h.seen.concat hr, fun before s' rest heq => ?_⟩
  · rw [← h.looked, List.map_append, List.append_assoc]
    rfl
  · refine (h.after (.look s :: before) s' rest (congrArg (Turn.look s :: ·) heq)).imp_left fun hmem => ?_
    exact (List.mem_cons.mp hmem).resolve_left nofun

end Turning

/-- Files that are worked on in the turns of a pool. -/
theorem runs_takeTurns {turns : List Turn} {begun : String → Bool} (h : Preserves system migrate sources holds)
    (hdone : holds done d) (hturning : Turning sources order done rs turns) :
    Act.Runs system (takeTurns migrate (c.isOn .continueOnError) begun sources done rs turns).run d
      (CameTo c sources order holds) := by
  -- by induction on the turns; what is left when the list ends early is worked on without being looked at
  induction turns generalizing done rs d with
  | nil =>
    have hnames : rs.map (·.1) = order := (List.append_nil _).symm.trans hturning.looked
    have hnodup := hturning.nodup
    have hsub := hturning.subset
    rw [show Turn.worked [] = [] from rfl, List.append_nil] at hnodup hsub
    exact runs_attempt_bind (runs_attempt_lift (Act.runs_log (Act.runs_pure
      ⟨done, hdone, hnodup, hsub, .finished hturning.seen hnames⟩)))
  | cons turn turns ih =>
    cases turn with
    | work s =>
      have hs : s ∈ sources := hturning.subset (List.mem_append_right _ List.mem_cons_self)
      have hnew : s ∉ done.map (·.1) := fun hmem =>
        (List.nodup_append.mp hturning.nodup).2.2 s hmem s List.mem_cons_self rfl
      exact runs_attempt_bind (runs_attempt_lift ((h done d s hdone hs hnew).mono fun answer d₁ hstep =>
        ih hstep hturning.work))
    | look s =>
      have hsome : s ∈ done.map (·.1) := (hturning.after [] s turns rfl).resolve_left List.not_mem_nil
      obtain ⟨answer, hlookup, hmem⟩ := lookup_of_mem hsome
      rw [takeTurns, hlookup]
      cases answer with
      | error f =>
        refine runs_attempt_bind (runs_attempt_lift ((runs_workOff h hdone hturning.subset hturning.nodup).mono
          fun _ d₁ hrest => Act.runs_pure ?_))
        obtain ⟨done', hdone', hmore, hnames⟩ := hrest
        exact ⟨done', hdone', hnames ▸ hturning.nodup, hnames ▸ hturning.subset, .thrown (hmore hmem)⟩
      | ok r =>
        have hlooked := hturning.look hmem
        dsimp only
        split
        · rename_i hstop
          rw [Bool.and_eq_true, Bool.not_eq_true'] at hstop
          have hkept : (done.map (·.1) ++ (Turn.worked turns).filter begun).Sublist
              (done.map (·.1) ++ Turn.worked turns) := List.filter_sublist.append_left _
          refine runs_attempt_bind (runs_attempt_lift ((runs_workOff h hdone
            (List.Subset.trans hkept.subset hturning.subset) (hturning.nodup.sublist hkept)).mono fun _ d₁ hrest => Act.runs_pure ?_))
          obtain ⟨done', hdone', hmore, hnames⟩ := hrest
          refine ⟨done', hdone', ?_, ?_, .broken hstop.2 hstop.1 (hlooked.seen.mono hmore) ⟨_, hlooked.looked⟩⟩
          · rw [hnames]
            exact hturning.nodup.sublist hkept
          · rw [hnames]
            exact List.Subset.trans hkept.subset hturning.subset
        · exact ih hdone hlooked

/-- Files that are worked on in a pool of threads. -/
theorem runs_pool (pool : Pool) (h : Preserves system migrate sources holds) (hstart : holds [] d)
    (hnodup : sources.Nodup) :
    Act.Runs system (pool.migrate migrate (c.isOn .continueOnError) sources).run d
      (CameTo c sources (Turn.looked (pool.turns sources)) holds) :=
  runs_takeTurns h hstart (Turning.start (pool.schedule sources) hnodup)

/-! ### Lists -/

/-- A list of files comes to what its files come to, in whatever way it is worked on. -/
theorem runs_migrateListed {pool : Pool} (h : Preserves system migrate sources holds) (hstart : holds [] d) :
    Act.Runs system (migrateListed migrate pool c sources).run d fun answer d' =>
      ∃ order, order.Perm sources.eraseDups ∧ CameTo c sources.eraseDups order holds answer d' := by
  have h : Preserves system migrate sources.eraseDups holds := fun done d s hdone hs =>
    h done d s hdone (List.mem_eraseDups.mp hs)
  have hnone : ∀ {answer}, Ends c sources.eraseDups sources.eraseDups [] answer →
      ∃ order, order.Perm sources.eraseDups ∧ CameTo c sources.eraseDups order holds answer d :=
    fun hends => ⟨_, List.Perm.refl _, [], hstart, List.nodup_nil, List.nil_subset _, hends⟩
  rw [migrateListed]
  split
  · rename_i hempty
    exact Act.runs_pure (hnone (.empty (List.isEmpty_iff.mp hempty)))
  · refine runs_attempt_bind (runs_attempt_ofExcept ?_)
    cases hconcurrent : c.isConcurrent with
    | error f => exact hnone (.undecided hconcurrent)
    | ok concurrent =>
      dsimp only
      split
      · refine (runs_pool pool h hstart (nodup_eraseDups sources)).mono fun answer d' hend => ?_
        exact ⟨_, (pool.schedule sources.eraseDups).looked, hend⟩
      · refine (runs_inOrder h hstart (nodup_eraseDups sources)).mono fun answer d' hend => ?_
        exact ⟨_, List.Perm.refl _, hend⟩

end FluentShift.Migration
