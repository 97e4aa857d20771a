import FluentShift.Rewrite.Migrate
import FluentShift.Proofs.Rewrite.Direct
import FluentShift.Proofs.Rewrite.Settlement
import FluentShift.Proofs.Source.Items

/-!
# FluentShift.Proofs.Rewrite.Accounting - what becomes of every call of the legacy function

Whenever `rewriteCalls` returns, every collected call is rewritten or skipped, once (`accounting`); and it is rewritten
exactly when its own arguments, names and comments allow it (`Rewritable`), whatever happens to other calls.
-/

namespace FluentShift.Rewrite

open FluentShift.Source FluentShift.Source.Tree FluentShift.Scope FluentShift.Types FluentShift.Imports

/-! ### What a rewrite works with -/

/-- The calls of the legacy function in a file. -/
def sitesOf (s : Setup) (f : SourceFile) : List CallSite := collect s.mapping (Table.ofModule f.tree) f.tree

/-- The tags of the arguments of a call in a file. -/
def tagsOf (s : Setup) (f : SourceFile) (c : CallSite) : List Tag :=
  argumentTags s.vocabulary (s.oracle.prepare s.vocabulary (Table.ofModule f.tree) f.tree) c.path c.call

/-- The fluent names that a file binds to something else, with what they are bound to. -/
def boundNames (s : Setup) (f : SourceFile) : List (String × String) :=
  conflicts s.mapping (Table.ofModule f.tree) [s.mapping.entryPoint, s.mapping.toleranceWrapper]

/-- How a call of a file is planned. -/
def decideIn (s : Setup) (f : SourceFile) (c : CallSite) : Except Failure (Rewritten ⊕ Skipped) :=
  decideCall s.mapping (boundNames s f) (tagsOf s f c) c

/-- A call that gets a plan: its arguments are positional and unstarred, there are two, three or four of them, and none
of the names that its classification needs is bound to something else. -/
structure Plannable (s : Setup) (f : SourceFile) (c : CallSite) : Prop where
  plain : hasPlainArguments c.call = true
  arity : 2 ≤ c.call.arguments.length ∧ c.call.arguments.length ≤ 4
  free : ∀ k, classify s.mapping (tagsOf s f c).length (tagsOf s f c) = .ok k →
    ∀ n ∈ requiredNames s.mapping k, n ∉ (boundNames s f).map Prod.fst

/-- A call that is rewritten: it gets a plan, and no comment stands around its arguments. -/
structure Rewritable (s : Setup) (f : SourceFile) (c : CallSite) : Prop extends Plannable s f c where
  clean : hasArgumentComments c.call = false

/-! ### The calls of a file -/

theorem sitesOf_sublist (s : Setup) (f : SourceFile) :
    ((sitesOf s f).map fun c => (c.path, c.call)).Sublist (f.tree.nodesOf .call) := by
  refine (List.filter_sublist.map _).trans ?_
  rw [allCalls, List.map_map]
  exact map_fst_zip_sublist _ _

/-- A collected call is a call that stands in the tree of the file. -/
theorem mem_sitesOf {s : Setup} {f : SourceFile} {c : CallSite} (hc : c ∈ sitesOf s f) :
    f.tree.at? c.path = some c.call ∧ c.call.isKind .call = true :=
  mem_nodesOf.mp ((sitesOf_sublist s f).subset (List.mem_map_of_mem (f := fun c => (c.path, c.call)) hc))

/-- No call is collected twice. -/
theorem nodup_paths_sitesOf (s : Setup) (f : SourceFile) : ((sitesOf s f).map (·.path)).Nodup := by
  have h := (sitesOf_sublist s f).map Prod.fst
  rw [List.map_map] at h
  exact (nodup_nodesFrom _ f.tree []).sublist h

theorem length_argumentsAt_of_site {s : Setup} {f : SourceFile} {c : CallSite} (hc : c ∈ sitesOf s f) :
    (c.call.argumentsAt c.path).length = c.call.arguments.length := by
  obtain ⟨ts, hts⟩ := exists_of_isKind (mem_sitesOf hc).2
  rw [hts]
  exact length_argumentsAt c.path ts

theorem length_tagsOf {s : Setup} {f : SourceFile} {c : CallSite} (hc : c ∈ sitesOf s f) :
    (tagsOf s f c).length = c.call.arguments.length := by
  rw [tagsOf, argumentTags, argumentTypes, List.length_map, List.length_map, length_argumentsAt_of_site hc]

/-! ### Planning -/

/-- Plans calls in order. -/
def planSites (decide : CallSite → Except Failure (Rewritten ⊕ Skipped)) :
    List CallSite → Except Failure (List Rewritten × List Skipped)
  | [] => .ok ([], [])
  | c :: cs => decide c >>= fun
    | .inl r => planSites decide cs >>= fun p => .ok (r :: p.1, p.2)
    | .inr k => planSites decide cs >>= fun p => .ok (p.1, k :: p.2)

theorem planAll_gives (m : Mapping) (decide : CallSite → Except Failure (Rewritten ⊕ Skipped)) (cs : List CallSite) :
    Run.Gives (planAll m decide cs) (planSites decide cs) := by
  induction cs with
  | nil => exact Run.gives_pure _
  | cons c cs ih =>
    refine (Run.gives_ofExcept _).bind fun d => ?_
    cases d with
    | inl r => exact ih.bind fun p => Run.gives_pure _
    | inr k => exact (Run.gives_log _ _).bind fun _ => ih.bind fun p => Run.gives_pure _

/-- Plans and skips divide the calls, in order, as each call is decided. -/
theorem planSites_ok {decide : CallSite → Except Failure (Rewritten ⊕ Skipped)} {cs : List CallSite}
    {plans : List Rewritten} {skipped : List Skipped} (hl : ∀ c r, decide c = .ok (.inl r) → r.site = c)
    (hr : ∀ c k, decide c = .ok (.inr k) → k.site = c) (h : planSites decide cs = .ok (plans, skipped)) :
    ((plans.map (·.site) ++ skipped.map (·.site)).Perm cs ∧ (plans.map (·.site)).Sublist cs ∧
      (skipped.map (·.site)).Sublist cs) ∧
      (∀ r ∈ plans, decide r.site = .ok (.inl r)) ∧ ∀ k ∈ skipped, decide k.site = .ok (.inr k) := by
  -- the decision about the first call goes before all others, on its own side
  induction cs generalizing plans skipped with
  | nil =>
    cases h
    exact ⟨⟨List.Perm.refl _, List.Sublist.refl _, List.Sublist.refl _⟩, fun _ h => absurd h List.not_mem_nil,
      fun _ h => absurd h List.not_mem_nil⟩
  | cons c cs ih =>
    obtain ⟨d, hd, h⟩ := Except.bind_eq_ok.mp h
    cases d with
    | inl r =>
      obtain ⟨p, hp, h⟩ := Except.bind_eq_ok.mp h
      cases h
      obtain ⟨⟨hperm, hplans, hskipped⟩, hinl, hinr⟩ := ih hp
      cases hl c r hd
      refine ⟨⟨hperm.cons _, hplans.cons_cons _, hskipped.cons _⟩, ?_, hinr⟩
      intro r' hr'
      rcases List.mem_cons.mp hr' with rfl | hr'
      · exact hd
      · exact hinl r' hr'
    | inr k =>
      obtain ⟨p, hp, h⟩ := Except.bind_eq_ok.mp h
      cases h
      obtain ⟨⟨hperm, hplans, hskipped⟩, hinl, hinr⟩ := ih hp
      cases hr c k hd
      refine ⟨⟨?_, hplans.cons _, hskipped.cons_cons _⟩, hinl, ?_⟩
      · exact List.perm_middle.trans (hperm.cons _)
      · intro k' hk'
        rcases List.mem_cons.mp hk' with rfl | hk'
        · exact hd
        · exact hinr k' hk'

theorem conflictReason_eq_none {bound : List (String × String)} {names : List String} :
    conflictReason bound names = none ↔ ∀ n ∈ names, n ∉ bound.map Prod.fst := by
  rw [conflictReason, List.findSome?_eq_none_iff]
  refine forall₂_congr fun n _ => ?_
  rw [Option.map_eq_none_iff, List.lookup_eq_none_iff, List.mem_map]
  constructor
  · rintro h ⟨b, hb, rfl⟩
    simpa using h b hb
  · intro h b hb
    rw [bne_iff_ne]
    rintro rfl
    exact h ⟨b, hb, rfl⟩

theorem decideIn_inl {s : Setup} {f : SourceFile} {c : CallSite} {r : Rewritten}
    (h : decideIn s f c = .ok (.inl r)) :
    r.site = c ∧ r.tags = tagsOf s f c ∧
      classify s.mapping (tagsOf s f c).length (tagsOf s f c) = .ok r.classification ∧
      hasPlainArguments c.call = true ∧
      ∀ n ∈ requiredNames s.mapping r.classification, n ∉ (boundNames s f).map Prod.fst := by
  unfold decideIn decideCall at h
  split at h
  · cases h
  · rename_i hplain
    split at h
    · split at h
      · cases h
      · cases h
    · rename_i k hk
      split at h
      · cases h
      · rename_i hnone
        cases h
        exact ⟨rfl, rfl, hk, by simpa using hplain, conflictReason_eq_none.mp hnone⟩

theorem site_of_decideIn_inr {s : Setup} {f : SourceFile} {c : CallSite} {k : Skipped}
    (h : decideIn s f c = .ok (.inr k)) : k.site = c := by
  unfold decideIn decideCall at h
  split at h
  · cases h; rfl
  · split at h
    · split at h
      · cases h; rfl
      · cases h
    · split at h
      · cases h; rfl
      · cases h

theorem decideIn_inr {s : Setup} {f : SourceFile} {c : CallSite} {k : Skipped} (hm : s.mapping.Accepted)
    (hc : c ∈ sitesOf s f) (h : decideIn s f c = .ok (.inr k)) : ¬Plannable s f c := by
  intro hp
  unfold decideIn decideCall at h
  split at h
  · rename_i hplain
    rw [hp.plain] at hplain
    cases hplain
  · split at h
    · rename_i e he
      split at h
      · have harity : 2 ≤ (tagsOf s f c).length ∧ (tagsOf s f c).length ≤ 4 := by
          rw [length_tagsOf hc]
          exact hp.arity
        obtain ⟨k, hk⟩ := exists_classify hm harity
        rw [hk] at he
        cases he
      · cases h
    · rename_i cl hcl
      split at h
      · rename_i reason hreason
        rw [conflictReason_eq_none.mpr (hp.free cl hcl)] at hreason
        cases hreason
      · cases h

/-! ### The result of a rewrite -/

/-- What splicing the chains of the plans into a file comes to. -/
def splicedOutcome (m : Mapping) (f : SourceFile) (plans : List Rewritten) (skipped : List Skipped)
    (spliced : Spliced) : Outcome :=
  let rewritten := plans.filter fun r => spliced.applied.contains r.site.path
  { file := { f with tree := spliced.tree }
    rewritten := rewritten
    skipped := skipped ++ spliced.failed.filterMap fun e =>
      (plans.find? fun r => r.site.path = e.1).map fun r => (⟨r.site, e.2⟩ : Skipped)
    edits := []
    required := sortedOnce (rewritten.flatMap fun r => requiredNames m r.classification)
    reconciled := false }

/-- The plans as the splicing looks them up. -/
def planKeys (plans : List Rewritten) : List (Path × Classification) :=
  plans.map fun r => (r.site.path, r.classification)

/-- What rewriting the calls of a file gives. -/
def rewriteResult (s : Setup) (f : SourceFile) : Except Failure Outcome :=
  if (sitesOf s f).isEmpty then .ok (.untouched f [])
  else
    planSites (decideIn s f) (sitesOf s f) >>= fun p =>
      if p.1.isEmpty then .ok (.untouched f p.2)
      else splice s.mapping (planKeys p.1) f.tree >>= fun spliced =>
        .ok (splicedOutcome s.mapping f p.1 p.2 spliced)

theorem rewriteCalls_gives (s : Setup) (f : SourceFile) : Run.Gives (rewriteCalls s f) (rewriteResult s f) := by
  unfold rewriteCalls rewriteResult
  show Run.Gives (if (sitesOf s f).isEmpty then _ else _) _
  split
  · exact Run.gives_pure _
  · -- the fault of the oracle is only logged
    have rest : ∀ u : PUnit, Run.Gives _ _ := fun _ => (planAll_gives s.mapping (decideIn s f) (sitesOf s f)).bind
      fun p => show Run.Gives (if p.1.isEmpty then pure (.untouched f p.2) else
        Run.ofExcept (splice s.mapping (planKeys p.1) f.tree) >>= fun spliced =>
          pure (splicedOutcome s.mapping f p.1 p.2 spliced)) (if p.1.isEmpty then _ else _) by
        split
        · exact Run.gives_pure _
        · exact (Run.gives_ofExcept _).bind fun spliced => Run.gives_pure _
    cases s.oracle.fault? s.vocabulary (Table.ofModule f.tree) f.tree with
    | some reason => exact (Run.gives_log _ _).bind rest
    | none => exact (Run.gives_pure PUnit.unit).bind rest

theorem rewriteResult_ok {s : Setup} {f : SourceFile} {o : Outcome} (h : rewriteResult s f = .ok o) :
    ∃ plans skipped, planSites (decideIn s f) (sitesOf s f) = .ok (plans, skipped) ∧
      (plans = [] ∧ o = .untouched f skipped ∨
        ∃ spliced, splice s.mapping (planKeys plans) f.tree = .ok spliced ∧
          o = splicedOutcome s.mapping f plans skipped spliced) := by
  unfold rewriteResult at h
  split at h
  · rename_i hempty
    cases h
    rw [List.isEmpty_iff.mp hempty]
    exact ⟨[], [], rfl, .inl ⟨rfl, rfl⟩⟩
  · obtain ⟨⟨plans, skipped⟩, hplans, h⟩ := Except.bind_eq_ok.mp h
    refine ⟨plans, skipped, hplans, ?_⟩
    simp only at h
    split at h
    · rename_i hempty
      cases h
      exact .inl ⟨List.isEmpty_iff.mp hempty, rfl⟩
    · obtain ⟨spliced, hspliced, h⟩ := Except.bind_eq_ok.mp h
      cases h
      exact .inr ⟨spliced, hspliced, rfl⟩

/-! ### Plans and their paths -/

section Plans

variable {plans : List Rewritten}

theorem lookup_planKeys (plans : List Rewritten) (q : Path) :
    (planKeys plans).lookup q = (plans.find? fun r => r.site.path = q).map (·.classification) := by
  induction plans with
  | nil => rfl
  | cons r plans ih =>
    rw [planKeys, List.map_cons, List.lookup_cons, List.find?_cons]
    by_cases hq : r.site.path = q
    · simp [hq]
    · have hne : (q == r.site.path) = false := beq_eq_false_iff_ne.mpr (Ne.symm hq)
      rw [hne]
      simpa [hq, planKeys] using ih

theorem find?_path (hnodup : (plans.map (·.site.path)).Nodup) {r : Rewritten} (hr : r ∈ plans) :
    plans.find? (fun r' => r'.site.path = r.site.path) = some r := by
  induction plans with
  | nil => cases hr
  | cons r' plans ih =>
    rw [List.map_cons, List.nodup_cons] at hnodup
    rw [List.find?_cons]
    rcases List.mem_cons.mp hr with rfl | hr
    · simp
    · have hne : r'.site.path ≠ r.site.path := by
        intro heq
        exact hnodup.1 (heq ▸ List.mem_map_of_mem (f := fun r => r.site.path) hr)
      simpa [hne] using ih hnodup.2 hr

theorem lookup_planKeys_of_mem (hnodup : (plans.map (·.site.path)).Nodup) {r : Rewritten} (hr : r ∈ plans) :
    (planKeys plans).lookup r.site.path = some r.classification := by
  rw [lookup_planKeys, find?_path hnodup hr]
  rfl

theorem exists_of_lookup_planKeys {q : Path} {c : Classification} (h : (planKeys plans).lookup q = some c) :
    ∃ r ∈ plans, r.site.path = q ∧ r.classification = c := by
  rw [lookup_planKeys, Option.map_eq_some_iff] at h
  obtain ⟨r, hr, rfl⟩ := h
  exact ⟨r, List.mem_of_find?_eq_some hr, by simpa using List.find?_some hr, rfl⟩

end Plans

/-! ### Chains and their paths -/

/-- The calls of an outcome that became chains, by their paths. -/
def Outcome.chains (o : Outcome) (q : Path) : Option Classification := (planKeys o.rewritten).lookup q

theorem chains_splicedOutcome {m : Mapping} {f : SourceFile} {plans : List Rewritten} {skipped : List Skipped}
    {spliced : Spliced} (q : Path) :
    (splicedOutcome m f plans skipped spliced).chains q =
      if q ∈ spliced.applied then (planKeys plans).lookup q else none := by
  show (planKeys (plans.filter fun r => spliced.applied.contains r.site.path)).lookup q = _
  rw [lookup_planKeys, lookup_planKeys, List.find?_filter]
  by_cases hq : q ∈ spliced.applied
  · rw [if_pos hq]
    congr 2
    funext r
    by_cases hr : r.site.path = q
    · simp [hr, hq]
    · simp [hr]
  · rw [if_neg hq, List.find?_eq_none.mpr]
    · rfl
    · intro r _
      by_cases hr : r.site.path = q
      · simp [hr, hq]
      · simp [hr]

/-! ### One rewrite -/

section Rewrite

variable {s : Setup} {f : SourceFile} {plans : List Rewritten} {skipped : List Skipped}
  (hplans : planSites (decideIn s f) (sitesOf s f) = .ok (plans, skipped))

include hplans

theorem plans_ok :
    ((plans.map (·.site) ++ skipped.map (·.site)).Perm (sitesOf s f) ∧ (plans.map (·.site)).Sublist (sitesOf s f) ∧
      (skipped.map (·.site)).Sublist (sitesOf s f)) ∧
      (∀ r ∈ plans, decideIn s f r.site = .ok (.inl r)) ∧ ∀ k ∈ skipped, decideIn s f k.site = .ok (.inr k) :=
  planSites_ok (fun _ _ h => (decideIn_inl h).1) (fun _ _ h => site_of_decideIn_inr h) hplans

theorem site_mem_of_plan {r : Rewritten} (hr : r ∈ plans) : r.site ∈ sitesOf s f :=
  (plans_ok hplans).1.2.1.subset (List.mem_map_of_mem (f := fun r => r.site) hr)

theorem nodup_paths_plans : (plans.map (·.site.path)).Nodup := by
  have h := (plans_ok hplans).1.2.1.map CallSite.path
  rw [List.map_map] at h
  exact (nodup_paths_sitesOf s f).sublist h

/-- A planned call can be planned. -/
theorem plannable_of_plan {r : Rewritten} (hr : r ∈ plans) : Plannable s f r.site := by
  obtain ⟨-, -, hclass, hplain, hfree⟩ := decideIn_inl ((plans_ok hplans).2.1 r hr)
  refine ⟨hplain, ?_, ?_⟩
  · obtain ⟨hlen, -⟩ := classify_ok hclass
    rw [← length_tagsOf (site_mem_of_plan hplans hr), hlen]
    cases r.classification.shape <;> exact ⟨by decide, by decide⟩
  · intro k hk
    rw [hclass] at hk
    cases hk
    exact hfree

/-- A planned call is a call of the tree, with as many arguments as its form takes. -/
theorem call_of_plan {r : Rewritten} (hr : r ∈ plans) :
    f.tree.at? r.site.path = some r.site.call ∧ r.site.call.isKind .call = true ∧
      r.classification.slots = slotsOf s.mapping r.classification.shape ∧
      r.site.call.arguments.length = r.classification.shape.arity := by
  have hsite := site_mem_of_plan hplans hr
  obtain ⟨hat, hcall⟩ := mem_sitesOf hsite
  obtain ⟨-, -, hclass, -, -⟩ := decideIn_inl ((plans_ok hplans).2.1 r hr)
  obtain ⟨hlen, hslots⟩ := classify_ok hclass
  exact ⟨hat, hcall, hslots, by rw [← hlen, length_tagsOf hsite]⟩

theorem planned_plans : Planned s.mapping ((planKeys plans).lookup ·) f.tree [] := by
  intro n hn c hc
  obtain ⟨r, hr, hpath, rfl⟩ := exists_of_lookup_planKeys hc
  obtain ⟨hat, hcall, hslots, hlen⟩ := call_of_plan hplans hr
  rw [hpath] at hat
  rw [eq_of_mem_nodesFrom hn hat]
  exact ⟨hcall, hslots, hlen⟩

/-- The planned nodes of the tree are the planned calls. -/
theorem plannedPaths_perm : (plannedPaths (planKeys plans) f.tree []).Perm (plans.map (·.site.path)) := by
  have hnodup := nodup_paths_plans hplans
  refine (List.perm_ext_iff_of_nodup ((nodup_nodesFrom _ f.tree []).filter _) hnodup).mpr fun q => ?_
  rw [List.mem_filter, List.mem_map, List.mem_map]
  constructor
  · rintro ⟨-, hq⟩
    obtain ⟨c, hc⟩ := Option.isSome_iff_exists.mp hq
    obtain ⟨r, hr, hpath, -⟩ := exists_of_lookup_planKeys hc
    exact ⟨r, hr, hpath⟩
  · rintro ⟨r, hr, rfl⟩
    obtain ⟨hat, hcall, -⟩ := call_of_plan hplans hr
    obtain ⟨ts, hts⟩ := exists_of_isKind hcall
    refine ⟨⟨(r.site.path, r.site.call), ?_, rfl⟩, by rw [lookup_planKeys_of_mem hnodup hr]; rfl⟩
    exact mem_nodesFrom.mpr ⟨r.site.path, (List.append_nil _).symm, hat, .call, by rw [hts]; rfl, rfl⟩

/-- The calls with a plan are those that can be planned. -/
theorem mem_plans_iff (hm : s.mapping.Accepted) {c : CallSite} (hc : c ∈ sitesOf s f) :
    c ∈ plans.map (·.site) ↔ Plannable s f c := by
  constructor
  · intro h
    obtain ⟨r, hr, rfl⟩ := List.mem_map.mp h
    exact plannable_of_plan hplans hr
  · intro hp
    rcases List.mem_append.mp ((plans_ok hplans).1.1.mem_iff.mpr hc) with h | h
    · exact h
    · obtain ⟨k, hk, rfl⟩ := List.mem_map.mp h
      exact absurd hp (decideIn_inr hm hc ((plans_ok hplans).2.2 k hk))

section Spliced

variable {spliced : Spliced} (hsplice : splice s.mapping (planKeys plans) f.tree = .ok spliced)

include hsplice

/-- The planned calls are applied or failed, each once. -/
theorem splice_covers_plans :
    (spliced.applied ++ spliced.failed.map Prod.fst).Perm (plans.map (·.site.path)) :=
  (splice_covers (planned_plans hplans).aimed hsplice).trans (plannedPaths_perm hplans)

/-- A planned call becomes a chain exactly when no comment stands around its arguments. -/
theorem mem_applied_iff (hm : s.mapping.Accepted) {r : Rewritten} (hr : r ∈ plans) :
    r.site.path ∈ spliced.applied ↔ hasArgumentComments r.site.call = false := by
  obtain ⟨happlied, hfailed⟩ := comments_of_splice hm (planned_plans hplans) hsplice
  obtain ⟨hat, -⟩ := call_of_plan hplans hr
  constructor
  · intro hq
    obtain ⟨n, hn, hcom⟩ := happlied _ hq
    rw [← eq_of_mem_nodesFrom hn hat]
    exact hcom
  · intro hcom
    have hmem := (splice_covers_plans hplans hsplice).mem_iff.mpr (List.mem_map_of_mem (f := fun r => r.site.path) hr)
    rcases List.mem_append.mp hmem with h | h
    · exact h
    · obtain ⟨e, he, hpath⟩ := List.mem_map.mp h
      obtain ⟨n, hn, hcom'⟩ := hfailed e he
      rw [hpath] at hn
      rw [eq_of_mem_nodesFrom hn hat, hcom] at hcom'
      cases hcom'

/-- The failed calls are the plans that are not applied. -/
theorem failed_perm :
    (spliced.failed.map Prod.fst).Perm
      ((plans.filter fun r => !spliced.applied.contains r.site.path).map (·.site.path)) := by
  have hcover := splice_covers_plans hplans hsplice
  have hnodup := nodup_paths_plans hplans
  have hboth := hcover.nodup_iff.mpr hnodup
  obtain ⟨-, hfailed, hdisjoint⟩ := List.nodup_append.mp hboth
  refine (List.perm_ext_iff_of_nodup hfailed (hnodup.sublist (List.filter_sublist.map _))).mpr fun q => ?_
  rw [List.mem_map (l := plans.filter _)]
  constructor
  · intro hq
    obtain ⟨r, hr, rfl⟩ := List.mem_map.mp (hcover.mem_iff.mp (List.mem_append_right _ hq))
    refine ⟨r, List.mem_filter.mpr ⟨hr, ?_⟩, rfl⟩
    have hnot : r.site.path ∉ spliced.applied := fun h => hdisjoint _ h _ hq rfl
    simpa using hnot
  · rintro ⟨r, hr, rfl⟩
    obtain ⟨hr, hnot⟩ := List.mem_filter.mp hr
    have hnot : r.site.path ∉ spliced.applied := by simpa using hnot
    have hmem := hcover.mem_iff.mpr (List.mem_map_of_mem (f := fun r => r.site.path) hr)
    exact (List.mem_append.mp hmem).resolve_left hnot

/-- Rewritten calls and calls whose chain failed are the planned calls. -/
theorem splicedOutcome_perm :
    ((plans.filter fun r => spliced.applied.contains r.site.path).map (·.site) ++
      (spliced.failed.filterMap fun e => (plans.find? fun r => r.site.path = e.1).map fun r =>
        (⟨r.site, e.2⟩ : Skipped)).map (·.site)).Perm (plans.map (·.site)) := by
  have hnodup := nodup_paths_plans hplans
  have hsites : (spliced.failed.filterMap fun e => (plans.find? fun r => r.site.path = e.1).map fun r =>
      (⟨r.site, e.2⟩ : Skipped)).map (·.site) =
      (spliced.failed.map Prod.fst).filterMap fun q => (plans.find? fun r => r.site.path = q).map (·.site) := by
    rw [List.map_filterMap, List.filterMap_map]
    congr 1
    funext e
    rw [Option.map_map]
    rfl
  have hself : ∀ rs : List Rewritten, rs ⊆ plans →
      (rs.map (·.site.path)).filterMap (fun q => (plans.find? fun r => r.site.path = q).map (·.site)) =
        rs.map (·.site) := by
    intro rs
    induction rs with
    | nil => exact fun _ => rfl
    | cons r rs ih =>
      intro hrs
      rw [List.map_cons, List.filterMap_cons, find?_path hnodup (hrs (List.mem_cons_self ..)), List.map_cons]
      exact congrArg (r.site :: ·) (ih fun x hx => hrs (List.mem_cons_of_mem _ hx))
  rw [hsites]
  have hfailed := (failed_perm hplans hsplice).filterMap fun q =>
    (plans.find? fun r => r.site.path = q).map (·.site)
  rw [hself _ List.filter_sublist.subset] at hfailed
  refine (hfailed.append_left _).trans ?_
  rw [← List.map_append]
  exact (List.filter_append_perm _ plans).map _

end Spliced

end Rewrite

/-! ### Accounts -/

/-- What an outcome says about the collected calls of a file. -/
structure Accounted (s : Setup) (f : SourceFile) (o : Outcome) : Prop where
  /-- The rewritten and the skipped calls are the collected ones. -/
  once : (o.rewritten.map (·.site) ++ o.skipped.map (·.site)).Perm (sitesOf s f)
  /-- No call is collected twice. -/
  distinct : ((sitesOf s f).map (·.path)).Nodup
  /-- Which calls are rewritten. -/
  rewritten_iff : ∀ c ∈ sitesOf s f, c ∈ o.rewritten.map (·.site) ↔ Rewritable s f c
  /-- Rewritten calls are in the order of the visit. -/
  ordered : (o.rewritten.map (·.site)).Sublist (sitesOf s f)
  /-- The calls without a plan come first among the skipped ones, in the order of the visit; the others would lose a
  comment. -/
  skips : ∃ planning emission, o.skipped = planning ++ emission ∧ (planning.map (·.site)).Sublist (sitesOf s f) ∧
    (∀ k ∈ planning, ¬Plannable s f k.site) ∧
    ∀ k ∈ emission, Plannable s f k.site ∧ hasArgumentComments k.site.call = true
  /-- A rewritten call has the classification of its tags. -/
  classified : ∀ r ∈ o.rewritten,
    classify s.mapping (tagsOf s f r.site).length (tagsOf s f r.site) = .ok r.classification
  /-- The required names are those of the rewritten calls. -/
  required : ∀ n, n ∈ o.required ↔ ∃ r ∈ o.rewritten, n ∈ requiredNames s.mapping r.classification

section Accounts

variable {s : Setup} {f : SourceFile} {plans : List Rewritten} {skipped : List Skipped}
  (hplans : planSites (decideIn s f) (sitesOf s f) = .ok (plans, skipped)) (hm : s.mapping.Accepted)

include hplans hm

theorem not_plannable_of_skipped {k : Skipped} (hk : k ∈ skipped) : ¬Plannable s f k.site := by
  have hsite : k.site ∈ sitesOf s f := (plans_ok hplans).1.2.2.subset (List.mem_map_of_mem (f := fun k => k.site) hk)
  exact decideIn_inr hm hsite ((plans_ok hplans).2.2 k hk)

theorem accounted_untouched (hnil : plans = []) : Accounted s f (.untouched f skipped) := by
  subst hnil
  obtain ⟨⟨hperm, -, hskipped⟩, -, -⟩ := plans_ok hplans
  refine ⟨hperm, nodup_paths_sitesOf s f, ?_, List.nil_sublist _, ⟨skipped, [], (List.append_nil _).symm, hskipped,
    fun k hk => not_plannable_of_skipped hplans hm hk, fun _ h => absurd h List.not_mem_nil⟩,
    fun _ h => absurd h List.not_mem_nil, fun n => ?_⟩
  · intro c hc
    refine ⟨fun h => absurd h List.not_mem_nil, fun h => ?_⟩
    exact (mem_plans_iff hplans hm hc).mpr h.toPlannable
  · exact ⟨fun h => absurd h List.not_mem_nil, fun ⟨_, h, _⟩ => absurd h List.not_mem_nil⟩

theorem accounted_spliced {spliced : Spliced} (hsplice : splice s.mapping (planKeys plans) f.tree = .ok spliced) :
    Accounted s f (splicedOutcome s.mapping f plans skipped spliced) := by
  obtain ⟨⟨hperm, hordered, hskipped⟩, hinl, -⟩ := plans_ok hplans
  have happlied : ∀ r, r ∈ (splicedOutcome s.mapping f plans skipped spliced).rewritten ↔
      r ∈ plans ∧ hasArgumentComments r.site.call = false := by
    intro r
    show r ∈ plans.filter _ ↔ _
    rw [List.mem_filter]
    refine and_congr_right fun hr => ?_
    rw [List.contains_iff_mem]
    exact mem_applied_iff hplans hsplice hm hr
  refine ⟨?_, nodup_paths_sitesOf s f, ?_, (List.filter_sublist.map _).trans hordered, ?_, ?_, fun n => ?_⟩
  · -- planned calls are rewritten or failed, the others were skipped before
    show (_ ++ (skipped ++ _).map _).Perm _
    rw [List.map_append]
    refine (List.perm_append_comm_assoc _ _ _).trans ?_
    refine ((splicedOutcome_perm hplans hsplice).append_left _).trans ?_
    exact List.perm_append_comm.trans hperm
  · -- a call is rewritten if it was planned and has no comment in a slot
    intro c hc
    rw [List.mem_map]
    constructor
    · rintro ⟨r, hr, rfl⟩
      obtain ⟨hr, hcom⟩ := (happlied r).mp hr
      exact ⟨plannable_of_plan hplans hr, hcom⟩
    · intro h
      obtain ⟨r, hr, rfl⟩ := List.mem_map.mp ((mem_plans_iff hplans hm hc).mpr h.toPlannable)
      exact ⟨r, (happlied r).mpr ⟨hr, h.clean⟩, rfl⟩
  · -- what was skipped before cannot be planned; what fails late has such a comment
    refine ⟨skipped, _, rfl, hskipped, fun k hk => not_plannable_of_skipped hplans hm hk, ?_⟩
    intro k hk
    obtain ⟨e, he, hk⟩ := List.mem_filterMap.mp hk
    obtain ⟨r, hr, rfl⟩ := Option.map_eq_some_iff.mp hk
    have hmem := List.mem_of_find?_eq_some hr
    have hpath : r.site.path = e.1 := by simpa using List.find?_some hr
    refine ⟨plannable_of_plan hplans hmem, ?_⟩
    obtain ⟨n, hn, hcom⟩ := (comments_of_splice hm (planned_plans hplans) hsplice).2 e he
    rw [← hpath] at hn
    rw [← eq_of_mem_nodesFrom hn (call_of_plan hplans hmem).1]
    exact hcom
  · intro r hr
    exact (decideIn_inl (hinl r ((happlied r).mp hr).1)).2.2.1
  · show n ∈ sortedOnce _ ↔ _
    rw [mem_sortedOnce, List.mem_flatMap]
    rfl

end Accounts

/-- Whenever the calls of a file are rewritten without a failure, every collected call is accounted for. -/
theorem rewriteCalls_accounted {s : Setup} {f : SourceFile} {o : Outcome} (hm : s.mapping.Accepted)
    (h : (rewriteCalls s f).value = .ok o) : Accounted s f o := by
  rw [(rewriteCalls_gives s f).value] at h
  obtain ⟨plans, skipped, hplans, ⟨hnil, rfl⟩ | ⟨spliced, hsplice, rfl⟩⟩ := rewriteResult_ok h
  · exact accounted_untouched hplans hm hnil
  · exact accounted_spliced hplans hm hsplice

/-! ### Rewriting with chains right from their forms -/

/-- What rewriting the calls of a file gives, without reading templates. -/
def directResult (s : Setup) (f : SourceFile) : Except Failure Outcome :=
  if (sitesOf s f).isEmpty then .ok (.untouched f [])
  else
    planSites (decideIn s f) (sitesOf s f) >>= fun p =>
      if p.1.isEmpty then .ok (.untouched f p.2)
      else spliceBy (directEmit s.mapping) (planKeys p.1) f.tree >>= fun spliced =>
        .ok (splicedOutcome s.mapping f p.1 p.2 spliced)

/-- What a run on a text gives, without reading templates. -/
def directMigrate (s : Setup) (code : String) : Except Failure (String × Outcome) :=
  (readSource code "<string>").value >>= fun f => directResult s f >>= fun o =>
    (reconcileImports s.mapping o).value >>= fun o => .ok (if o.changed then o.file.code else code, o)

theorem apply_gives (m : Mapping) (es : List Edit) (f : SourceFile) :
    Run.Gives (apply m es f) (apply m es f).value := by
  unfold apply
  dsimp only
  split
  · exact fun _ => rfl
  · split
    · exact fun _ => rfl
    · split <;> exact fun _ => rfl

theorem reconcileImports_gives (m : Mapping) (o : Outcome) :
    Run.Gives (reconcileImports m o) (reconcileImports m o).value := by
  unfold reconcileImports
  split
  · exact Run.gives_pure _
  · have h := (apply_gives m (plan m o.required o.file.tree) o.file).bind fun r =>
      Run.gives_pure { o with file := r.file, edits := r.edits, reconciled := true }
    exact fun l => (h l).trans (h []).symm

theorem readSource_gives (code file : String) :
    Run.Gives (readSource code file) (readSource code file).value := by
  unfold readSource
  split
  · exact Run.gives_pure _
  · exact Run.gives_throw _

section Direct

variable {s : Setup} (hm : s.mapping.Accepted) (hplain : ∀ n ∈ chainNames s.mapping, '_' ∉ n.toList)

include hm hplain

theorem rewriteCalls_direct (f : SourceFile) : Run.Gives (rewriteCalls s f) (directResult s f) := by
  have heq : rewriteResult s f = directResult s f := by
    unfold rewriteResult directResult
    split
    · rfl
    · cases hplans : planSites (decideIn s f) (sitesOf s f) with
      | error e => rfl
      | ok p =>
        show (if p.1.isEmpty then _ else _) = if p.1.isEmpty then _ else _
        rw [splice_eq_direct hm hplain]
        intro q c hc
        obtain ⟨r, hr, -, rfl⟩ := exists_of_lookup_planKeys hc
        exact (classify_ok (decideIn_inl ((plans_ok hplans).2.1 r hr)).2.2.1).2
  exact heq ▸ rewriteCalls_gives s f

theorem rewrite_direct (f : SourceFile) :
    Run.Gives (rewrite s f) (directResult s f >>= fun o => (reconcileImports s.mapping o).value) :=
  (rewriteCalls_direct hm hplain f).bind (reconcileImports_gives s.mapping)

theorem migrateWithOutcome_direct (code : String) : (migrateWithOutcome s code).value = directMigrate s code := by
  refine Run.Gives.value ((readSource_gives code "<string>").bind fun f => ?_)
  have h := (rewrite_direct hm hplain f).bind fun o => Run.gives_pure (if o.changed then o.file.code else code, o)
  rwa [bind_assoc (directResult s f)] at h

end Direct

/-! ### A run -/

/-- The default mapping and vocabulary, with types from the file alone. -/
def plainSetup : Setup := ⟨.standard, .standard, .local_⟩

/-- The paths of a call and of its arguments. -/
def CallSite.footprint (c : CallSite) : Path × List Path := (c.path, (c.call.argumentsAt c.path).map Prod.fst)

/-- What a rewrite of a text comes to: the paths of the collected and of the rewritten calls, and the new text. -/
structure Summary where
  sites : List (Path × List Path)
  rewritten : List (Path × List Path)
  code : String
  deriving DecidableEq

/-- Reads a text and rewrites its calls. -/
def summary (s : Setup) (text : String) : Option Summary :=
  (SourceFile.parse? text).bind fun f => (rewriteCalls s f).value.toOption.map fun o =>
    ⟨(sitesOf s f).map (·.footprint), o.rewritten.map (·.site.footprint), o.file.code⟩

theorem summary_direct {s : Setup} (hm : s.mapping.Accepted) (hplain : ∀ n ∈ chainNames s.mapping, '_' ∉ n.toList)
    (text : String) : summary s text = (SourceFile.parse? text).bind fun f => (directResult s f).toOption.map fun o =>
      ⟨(sitesOf s f).map (·.footprint), o.rewritten.map (·.site.footprint), o.file.code⟩ := by
  simp only [summary, (rewriteCalls_direct hm hplain _).value]

theorem of_summary {s : Setup} {text : String} {r : Summary} (h : summary s text = some r) :
    ∃ f o, SourceFile.parse? text = some f ∧ (rewriteCalls s f).value = .ok o ∧
      (sitesOf s f).map (·.footprint) = r.sites ∧ o.rewritten.map (·.site.footprint) = r.rewritten ∧
      o.file.code = r.code := by
  obtain ⟨f, hf, h⟩ := Option.bind_eq_some_iff.mp h
  obtain ⟨o, ho, rfl⟩ := Option.map_eq_some_iff.mp h
  exact ⟨f, o, hf, Except.eq_ok_of_toOption ho, rfl, rfl, rfl⟩

/-- A text with a call that has too few arguments, and a call in parentheses that has another one in it. -/
def nestedText : String :=
  "from junit.Assertions import assertEquals as eq\neq(1)\n(eq(1, eq(2, 3))) # c\n"

set_option maxRecDepth 100000 in
theorem summary_nestedText : summary plainSetup nestedText = some
    { sites := [([0, 1], [[0, 2, 0, 1]]), ([1, 0, 2], [[0, 2, 1, 0, 2], [0, 5, 1, 0, 2]]),
        ([0, 5, 1, 0, 2], [[0, 2, 0, 5, 1, 0, 2], [0, 5, 0, 5, 1, 0, 2]])]
      rewritten := [([1, 0, 2], [[0, 2, 1, 0, 2], [0, 5, 1, 0, 2]]),
        ([0, 5, 1, 0, 2], [[0, 2, 0, 5, 1, 0, 2], [0, 5, 0, 5, 1, 0, 2]])]
      code := "from junit.Assertions import assertEquals as eq\neq(1)\n" ++
        "(assertThat(assertThat(3).isEqualTo(2)).isEqualTo(1)) # c\n" } := by
  rw [summary_direct (s := plainSetup) Mapping.accepted_standard chainNames_standard]
  decide +kernel

/-- The calls of `nestedText` are accounted for. -/
theorem accounted_nestedText :
    ∃ f o, SourceFile.parse? nestedText = some f ∧ (rewriteCalls plainSetup f).value = .ok o ∧
      (sitesOf plainSetup f).length = 3 ∧ o.rewritten.length = 2 ∧ Accounted plainSetup f o := by
  obtain ⟨f, o, hf, ho, hsites, hrewritten, -⟩ := of_summary summary_nestedText
  refine ⟨f, o, hf, ho, ?_, ?_, rewriteCalls_accounted Mapping.accepted_standard ho⟩
  · rw [← List.length_map CallSite.footprint, hsites]
    rfl
  · rw [← List.length_map fun r : Rewritten => r.site.footprint, hrewritten]
    rfl

end FluentShift.Rewrite
