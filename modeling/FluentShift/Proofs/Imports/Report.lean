import FluentShift.Proofs.Imports.Idle

/-!
# FluentShift.Proofs.Imports.Report - what a report says about the edits

Edits are reported by what the summaries of the imports before and after them have.  An import that is asked to go is
reported when all of its occurrences go, and one that is added when there was none of it before, and the text changes only
where an import goes or comes (`apply_exact_iff`).  Where only some occurrences go, or where there was one already, the text
changes and nothing is reported (`unreported_nestedText`).
-/

namespace FluentShift.Imports

open FluentShift.Source FluentShift.Source.Tree FluentShift.Scope FluentShift.Run

theorem isLineBreak_parse? {text : String} {f : SourceFile} (h : SourceFile.parse? text = some f) :
    IsLineBreak f.lineBreak := by
  obtain ⟨tree, -, heq⟩ := Option.bind_eq_some_iff.mp h
  cases heq
  exact isLineBreak_firstLineBreak text

/-! ### The imports of an edited file -/

theorem map_snd_located (t : Tree) : (located t).map Prod.snd = takenIn t := by
  rw [located, takenIn, importsIn, ← importStatements_eq, List.map_flatMap, List.flatMap_map]
  refine List.flatMap_congr fun s _ => ?_
  rw [List.map_map]
  exact List.map_id _

section Edited

variable {f : SourceFile} {es : List Edit}

/-- Editing the imports of a file adds only wanted ones, and then takes those away that are asked to go and not in use. -/
theorem taken_edited {ts : List Tree} (hts : f.tree = .node .module ts) (hformed : f.tree.Formed)
    (hbreak : IsLineBreak f.lineBreak) (hwanted : ∀ w ∈ wantedOf es, w.Writable) {t : Tree}
    (hadd : add f.lineBreak (wantedOf es) f.closedTree = some t) :
    (takenIn f.tree).Sublist (takenIn t) ∧
    (∀ x ∈ takenIn t, x ∈ takenIn f.tree ∨ ∃ w ∈ wantedOf es, x = w.taken) ∧
    takenIn (f.withClosedTree (remove f.lineBreak (unwantedOf es) t)).tree =
      ((located t).filter fun x => !isAsked (unwantedOf es) x.2 || isUsedIn t x).map Prod.snd ∧
    takenIn (f.withClosedTree (remove f.lineBreak (unwantedOf es) t)).tree =
      takenIn (remove f.lineBreak (unwantedOf es) t) := by
  obtain ⟨us, hus, hclosed, hsame⟩ := closedTree_spec hts hformed
  have htaken := hsame.takenIn
  rw [hus] at hadd hclosed htaken
  obtain ⟨vs, hvs, hformed', hsub, hnew⟩ := taken_add hbreak hwanted hclosed hadd
  rw [htaken] at hsub hnew
  obtain ⟨hleft, hend⟩ := taken_remove f.lineBreak (unwantedOf es) (hvs ▸ hformed') hvs
  refine ⟨hsub, hnew, ?_, takenIn_withClosedTree _ hend⟩
  rw [takenIn_withClosedTree _ hend, hleft]
  exact congrArg _ (List.filter_congr fun x _ => staysTaken_eq _ _ _)

end Edited

/-- What edits come to: the imports are added and taken away, and the summaries before and after say what is reported. -/
theorem apply_value {m : Mapping} {es : List Edit} {f : SourceFile} {r : Reconciled} (hes : es ≠ [])
    (h : (apply m es f).value = .ok r) :
    ∃ t, add f.lineBreak (wantedOf es) f.closedTree = some t ∧
      r.file = f.withClosedTree (remove f.lineBreak (unwantedOf es) t) ∧
      r.added = es.filter (fun e => e.kind = .add &&
        (gather (remove f.lineBreak (unwantedOf es) t)).contains ⟨e.module, e.name, none⟩ &&
        !(gather f.tree).contains ⟨e.module, e.name, none⟩) ∧
      r.removed = es.filter (fun e => e.kind = .remove &&
        (gather f.tree).contains ⟨e.module, e.name, e.alias_⟩ &&
        !(gather (remove f.lineBreak (unwantedOf es) t)).contains ⟨e.module, e.name, e.alias_⟩) := by
  unfold apply at h
  dsimp only at h
  rw [if_neg hes] at h
  split at h
  · cases (gives_throw _).value.symm.trans h
  · split at h
    · cases h
    · next t ht =>
      cases h
      exact ⟨t, ht, rfl, rfl, rfl⟩

/-! ### What is reported -/

/-- The import that an edit is about; one that is added has no alias. -/
def Edit.target (e : Edit) : Entry := ⟨e.module, e.name, if e.kind = .add then none else e.alias_⟩

/-- Whether edits take an import away from a tree: it is asked to go and not in use there. -/
def goes (es : List Edit) (t : Tree) (x : Path × Taken) : Bool := isAsked (unwantedOf es) x.2 && !isUsedIn t x

/-- Edits take an occurrence of an import away. -/
def Deletes (es : List Edit) (t : Tree) (e : Entry) : Prop := ∃ x ∈ located t, Taken.entry? x.2 = some e ∧ goes es t x = true

/-- Edits leave an occurrence of an import. -/
def Leaves (es : List Edit) (t : Tree) (e : Entry) : Prop := ∃ x ∈ located t, Taken.entry? x.2 = some e ∧ goes es t x = false

/-- A tree has more occurrences of an import than another one. -/
def Inserts (t u : Tree) (e : Entry) : Prop := (entriesIn t).count e < (entriesIn u).count e

/-- An edit acts on a file: it puts an import in, or takes one away. -/
def Edit.Acts (es : List Edit) (f : SourceFile) (t : Tree) (e : Edit) : Prop :=
  (e.kind = .add ∧ Inserts f.tree t e.target) ∨ (e.kind = .remove ∧ Deletes es t e.target)

/-- An import is in a tree if it has an occurrence there. -/
theorem mem_entriesIn_iff {t : Tree} {e : Entry} : e ∈ entriesIn t ↔ ∃ x ∈ located t, Taken.entry? x.2 = some e := by
  rw [entriesIn, List.mem_filterMap, ← map_snd_located]
  constructor
  · rintro ⟨y, hy, he⟩
    obtain ⟨x, hx, rfl⟩ := List.mem_map.mp hy
    exact ⟨x, hx, he⟩
  · rintro ⟨x, hx, he⟩
    exact ⟨x.2, List.mem_map_of_mem hx, he⟩

theorem gather_congr {t u : Tree} (h : takenIn t = takenIn u) : gather t = gather u := by
  unfold gather
  rw [entriesIn_eq, entriesIn_eq, entriesIn, entriesIn, h]

/-- How a file, the same file with more imports, and a report of edits belong together. -/
structure Reports (es : List Edit) (f : SourceFile) (t : Tree) (r : Reconciled) : Prop where
  idle : es = [] → r.file = f
  /-- The file with more imports is what adding comes to. -/
  made : es ≠ [] → add f.lineBreak (wantedOf es) f.closedTree = some t ∧
    r.file = f.withClosedTree (remove f.lineBreak (unwantedOf es) t)
  /-- The imports of the file are kept. -/
  kept : (takenIn f.tree).Sublist (takenIn t)
  /-- Only what edits add is added. -/
  wanted : ∀ x ∈ takenIn t, x ∈ takenIn f.tree ∨ ∃ e ∈ es, e.kind = .add ∧ x.entry? = some e.target
  /-- Of all these imports those are left that do not go. -/
  left : takenIn r.file.tree = ((located t).filter fun x => !goes es t x).map Prod.snd
  added : ∀ e, e ∈ r.added ↔ e ∈ es ∧ e.kind = .add ∧ e.target ∈ gather r.file.tree ∧ e.target ∉ gather f.tree
  removed : ∀ e, e ∈ r.removed ↔ e ∈ es ∧ e.kind = .remove ∧ e.target ∈ gather f.tree ∧ e.target ∉ gather r.file.tree

theorem forall_wantedOf {es : List Edit} (hadds : ∀ e ∈ es, e.kind = .add → Wanted.Writable ⟨e.module, e.name⟩) :
    ∀ w ∈ wantedOf es, w.Writable := by
  intro w hw
  obtain ⟨e, he, rfl⟩ := List.mem_map.mp hw
  obtain ⟨he, hkind⟩ := List.mem_filter.mp he
  exact hadds e he (of_decide_eq_true hkind)

/-- The import that an edit adds. -/
theorem exists_edit_of_mem_wantedOf {es : List Edit} {w : Wanted} (h : w ∈ wantedOf es) :
    ∃ e ∈ es, e.kind = .add ∧ Taken.entry? w.taken = some e.target := by
  obtain ⟨e, he, rfl⟩ := List.mem_map.mp h
  obtain ⟨he, hkind⟩ := List.mem_filter.mp he
  refine ⟨e, he, of_decide_eq_true hkind, ?_⟩
  rw [Edit.target, if_pos (of_decide_eq_true hkind), Wanted.taken]
  cases e.name <;> rfl

/-- Applying edits that add imports which can be written. -/
theorem reports_apply {m : Mapping} {es : List Edit} {text : String} {f : SourceFile}
    (hparse : SourceFile.parse? text = some f) (hadds : ∀ e ∈ es, e.kind = .add → Wanted.Writable ⟨e.module, e.name⟩)
    {r : Reconciled} (h : (apply m es f).value = .ok r) : ∃ t, Reports es f t r := by
  -- without edits the module is left alone
  by_cases hes : es = []
  · subst hes
    cases h
    refine ⟨f.tree, fun _ => rfl, fun hne => absurd rfl hne, List.Sublist.refl _, fun x hx => .inl hx, ?_, by simp,
      by simp⟩
    have hstay : ∀ x ∈ located f.tree, (!goes [] f.tree x) = true := by
      rintro ⟨p, source, name⟩ -
      cases source <;> cases name <;> simp [goes, isAsked, unwantedOf]
    rw [List.filter_eq_self.mpr hstay, map_snd_located]
  · obtain ⟨t, hadd, hfile, hadded, hremoved⟩ := apply_value hes h
    obtain ⟨ts, hts, hformed⟩ := formed_parse? hparse
    have hwanted := forall_wantedOf hadds
    -- the report compares the summaries of the two trees, which are those of the trees in between
    obtain ⟨hsub, hnew, hleft, hsame⟩ := taken_edited hts hformed (isLineBreak_parse? hparse) hwanted hadd
    rw [← hfile] at hleft hsame
    rw [← gather_congr hsame] at hadded hremoved
    refine ⟨t, fun hnil => absurd hnil hes, fun _ => ⟨hadd, hfile⟩, hsub, fun x hx => (hnew x hx).imp id ?_, ?_,
      fun e => ?_, fun e => ?_⟩
    · rintro ⟨w, hw, rfl⟩
      exact exists_edit_of_mem_wantedOf hw
    · rw [hleft]
      refine congrArg _ (List.filter_congr fun x _ => ?_)
      rw [goes, Bool.not_and, Bool.not_not]
    · rw [hadded, List.mem_filter, Bool.and_eq_true, Bool.and_eq_true, decide_eq_true_eq, Bool.not_eq_true',
        Bool.eq_false_iff, List.contains_iff_mem, ne_eq, List.contains_iff_mem]
      constructor
      · rintro ⟨he, ⟨hkind, hafter⟩, hbefore⟩
        rw [Edit.target, if_pos hkind]
        exact ⟨he, hkind, hafter, hbefore⟩
      · rintro ⟨he, hkind, hafter, hbefore⟩
        rw [Edit.target, if_pos hkind] at hafter hbefore
        exact ⟨he, ⟨hkind, hafter⟩, hbefore⟩
    · rw [hremoved, List.mem_filter, Bool.and_eq_true, Bool.and_eq_true, decide_eq_true_eq, Bool.not_eq_true',
        Bool.eq_false_iff, List.contains_iff_mem, ne_eq, List.contains_iff_mem]
      have htarget : e.kind = .remove → e.target = ⟨e.module, e.name, e.alias_⟩ := by
        intro hkind
        rw [Edit.target, if_neg (by rw [hkind]; decide)]
      constructor
      · rintro ⟨he, ⟨hkind, hbefore⟩, hafter⟩
        rw [htarget hkind]
        exact ⟨he, hkind, hbefore, hafter⟩
      · rintro ⟨he, hkind, hbefore, hafter⟩
        rw [htarget hkind] at hbefore hafter
        exact ⟨he, ⟨hkind, hbefore⟩, hafter⟩

/-! ### Where the text changes -/

/-- An import that is asked to go is one that some edit is about. -/
theorem exists_edit_of_isAsked {es : List Edit} {x : Taken} (h : isAsked (unwantedOf es) x = true) :
    ∃ e ∈ es, e.kind = .remove ∧ x.entry? = some e.target := by
  obtain ⟨source, name⟩ := x
  cases name with
  | none => cases source <;> cases h
  | some n =>
    cases source with
    | none =>
      obtain ⟨before, after, hsplit, -⟩ := List.lookup_eq_some_iff.mp (of_decide_eq_true h)
      have hmem : (n.name, n.alias_) ∈ (unwantedOf es).modules := by
        rw [hsplit]
        exact List.mem_append_right _ (List.mem_cons_self ..)
      exact ⟨_, mem_modules_unwantedOf.mp hmem, rfl, rfl⟩
    | some m =>
      obtain ⟨hdots, hmem⟩ := (Bool.and_eq_true _ _).mp h
      refine ⟨_, mem_names_unwantedOf.mp (List.contains_iff_mem.mp hmem), rfl, ?_⟩
      exact if_neg (not_not.mpr (of_decide_eq_true hdots))

theorem count_entriesIn (t : Tree) (e : Entry) :
    (entriesIn t).count e = (takenIn t).countP fun x => x.entry? = some e := by
  rw [entriesIn, List.count, List.countP_filterMap]
  refine congrArg (List.countP · _) (funext fun x => ?_)
  cases x.entry? <;> simp [Bool.beq_eq_decide_eq]

/-- The text of a file changes only where some edit acts. -/
theorem Reports.exists_acts {es : List Edit} {f : SourceFile} {t : Tree} {r : Reconciled} (h : Reports es f t r)
    {text : String} (hparse : SourceFile.parse? text = some f)
    (hadds : ∀ e ∈ es, e.kind = .add → Wanted.Writable ⟨e.module, e.name⟩)
    (hne : r.file.code ≠ f.code) : ∃ e ∈ es, e.Acts es f t := by
  by_contra hnone
  refine hne ?_
  by_cases hes : es = []
  · rw [h.idle hes]
  · obtain ⟨hadd, hfile⟩ := h.made hes
    obtain ⟨ts, hts, hformed⟩ := formed_parse? hparse
    obtain ⟨us, hus, hclosed, hsame⟩ := closedTree_spec hts hformed
    have hfilled := filled_closedTree hts hformed (filled_parse? hparse)
    rw [hus] at hadd
    obtain ⟨vs, preamble, leading, rest, first, later, rfl, hadded⟩ :=
      added_add (isLineBreak_parse? hparse) (forall_wantedOf hadds) hadd
    -- nothing is missing, or more imports would be there
    have hgiven : missingFrom (wantedOf es) leading = [] := by
      refine List.eq_nil_iff_forall_not_mem.mpr fun w hw => ?_
      obtain ⟨e, he, hkind, hentry⟩ := exists_edit_of_mem_wantedOf (List.mem_of_mem_filter hw)
      refine hnone ⟨e, he, .inl ⟨hkind, ?_⟩⟩
      have hmore := countTaken_add (p := fun x => x.entry? = some e.target) (isLineBreak_parse? hparse)
        (forall_wantedOf hadds) (hus ▸ hclosed) hadded hw (decide_eq_true hentry)
      rw [← hus, hsame.takenIn] at hmore
      rw [Inserts, count_entriesIn, count_entriesIn]
      exact hmore
    rw [hadded.idle hgiven, ← hus] at hfile hnone
    -- nothing goes
    have hused : ∀ x ∈ located f.closedTree, (!isAsked (unwantedOf es) x.2 || isUsedIn f.closedTree x) = true := by
      intro x hx
      by_contra hgoes
      rw [Bool.not_eq_true, Bool.or_eq_false_iff, Bool.not_eq_false'] at hgoes
      obtain ⟨e, he, hkind, hentry⟩ := exists_edit_of_isAsked hgoes.1
      refine hnone ⟨e, he, .inr ⟨hkind, x, hx, hentry, ?_⟩⟩
      rw [goes, hgoes.1, hgoes.2]
      rfl
    rw [hfile, remove_of_used f.lineBreak hfilled hused]
    exact code_withClosedTree_closedTree hts (code_ne_empty hparse)

section Exact

variable {es : List Edit} {f : SourceFile} {t : Tree} {r : Reconciled}

/-- What is left of an import is what does not go. -/
theorem Reports.mem_after_iff (h : Reports es f t r) {e : Entry} : e ∈ entriesIn r.file.tree ↔ Leaves es t e := by
  rw [entriesIn, h.left, List.mem_filterMap]
  constructor
  · rintro ⟨y, hy, he⟩
    obtain ⟨x, hx, rfl⟩ := List.mem_map.mp hy
    obtain ⟨hx, hstays⟩ := List.mem_filter.mp hx
    exact ⟨x, hx, he, by simpa using hstays⟩
  · rintro ⟨x, hx, he, hstays⟩
    exact ⟨x.2, List.mem_map_of_mem (List.mem_filter.mpr ⟨hx, by rw [hstays]; rfl⟩), he⟩

variable {e : Edit} (hbefore : Shown (entriesIn f.tree) e.target) (hafter : Shown (entriesIn r.file.tree) e.target)

include hbefore hafter

/-- A removal is reported when the import was there and nothing of it is left. -/
theorem Reports.mem_removed_iff (h : Reports es f t r) (he : e ∈ es) (hkind : e.kind = .remove) :
    e ∈ r.removed ↔ e.target ∈ entriesIn f.tree ∧ ¬ Leaves es t e.target := by
  rw [h.removed, mem_gather_of_shown hbefore, mem_gather_of_shown hafter, h.mem_after_iff]
  exact ⟨fun hmem => hmem.2.2, fun hmem => ⟨he, hkind, hmem⟩⟩

/-- An addition is reported when the import was not there and some of it is left. -/
theorem Reports.mem_added_iff (h : Reports es f t r) (he : e ∈ es) (hkind : e.kind = .add) :
    e ∈ r.added ↔ e.target ∉ entriesIn f.tree ∧ Leaves es t e.target := by
  rw [h.added, mem_gather_of_shown hbefore, mem_gather_of_shown hafter, h.mem_after_iff]
  exact ⟨fun hmem => ⟨hmem.2.2.2, hmem.2.2.1⟩, fun hmem => ⟨he, hkind, hmem.2, hmem.1⟩⟩

/-- The report of a removal is exact unless one occurrence goes and another one is left. -/
theorem Reports.removed_exact_iff (h : Reports es f t r) (he : e ∈ es) (hkind : e.kind = .remove)
    (hother : ∀ a ∈ es, a.kind = .add → a.target ≠ e.target) :
    (e ∈ r.removed ↔ Deletes es t e.target) ↔ ¬ (Deletes es t e.target ∧ Leaves es t e.target) := by
  have hreported := h.mem_removed_iff hbefore hafter he hkind
  constructor
  · rintro hexact ⟨hdeletes, hleaves⟩
    exact (hreported.mp (hexact.mpr hdeletes)).2 hleaves
  · intro hnot
    refine ⟨fun hmem => ?_, fun hdeletes => hreported.mpr ⟨?_, fun hleaves => hnot ⟨hdeletes, hleaves⟩⟩⟩
    · obtain ⟨hthere, hgone⟩ := hreported.mp hmem
      obtain ⟨x, hx, hentry⟩ := mem_entriesIn_iff.mp ((h.kept.filterMap _).subset hthere)
      refine ⟨x, hx, hentry, ?_⟩
      by_contra hstay
      exact hgone ⟨x, hx, hentry, Bool.eq_false_iff.mpr hstay⟩
    · obtain ⟨x, hx, hentry, -⟩ := hdeletes
      have hmem : x.2 ∈ takenIn t := by rw [← map_snd_located]; exact List.mem_map_of_mem hx
      obtain hold | ⟨a, ha, hadd, htarget⟩ := h.wanted _ hmem
      · exact List.mem_filterMap.mpr ⟨x.2, hold, hentry⟩
      · exact absurd (Option.some.inj (htarget.symm.trans hentry)) (hother a ha hadd)

/-- The report of an addition is exact unless an import is inserted that was there already, or that does not stay. -/
theorem Reports.added_exact_iff (h : Reports es f t r) (he : e ∈ es) (hkind : e.kind = .add) :
    (e ∈ r.added ↔ Inserts f.tree t e.target) ↔
      (Inserts f.tree t e.target → e.target ∉ entriesIn f.tree ∧ Leaves es t e.target) := by
  have hreported := h.mem_added_iff hbefore hafter he hkind
  constructor
  · exact fun hexact hinserts => hreported.mp (hexact.mpr hinserts)
  · intro hgood
    refine ⟨fun hmem => ?_, fun hinserts => hreported.mpr (hgood hinserts)⟩
    obtain ⟨hnew, x, hx, hentry, -⟩ := hreported.mp hmem
    rw [Inserts, List.count_eq_zero.mpr hnew]
    exact List.count_pos_iff.mpr (mem_entriesIn_iff.mpr ⟨x, hx, hentry⟩)

end Exact

/-- Applying edits that add modules or names from modules: the text changes only where some edit acts, and wherever the
summaries have the import that an edit is about, the report of a removal is exact unless one occurrence goes and another one
is left, and the report of an addition is exact unless there was such an import already or the new one does not stay. -/
theorem apply_exact_iff {m : Mapping} {es : List Edit} {text : String} {f : SourceFile}
    (hparse : SourceFile.parse? text = some f) (hadds : ∀ e ∈ es, e.kind = .add → Wanted.Writable ⟨e.module, e.name⟩)
    {r : Reconciled} (h : (apply m es f).value = .ok r) :
    ∃ t, Reports es f t r ∧ (r.file.code ≠ f.code → ∃ e ∈ es, e.Acts es f t) ∧
      ∀ e ∈ es, Shown (entriesIn f.tree) e.target → Shown (entriesIn r.file.tree) e.target →
        (e.kind = .remove → (∀ a ∈ es, a.kind = .add → a.target ≠ e.target) →
          ((e ∈ r.removed ↔ Deletes es t e.target) ↔ ¬ (Deletes es t e.target ∧ Leaves es t e.target))) ∧
        (e.kind = .add →
          ((e ∈ r.added ↔ Inserts f.tree t e.target) ↔
            (Inserts f.tree t e.target → e.target ∉ entriesIn f.tree ∧ Leaves es t e.target))) := by
  obtain ⟨t, hreports⟩ := reports_apply hparse hadds h
  exact ⟨t, hreports, hreports.exists_acts hparse hadds, fun e he hbefore hafter =>
    ⟨hreports.removed_exact_iff hbefore hafter he, hreports.added_exact_iff hbefore hafter he⟩⟩

/-! ### Runs -/

/-- What a plan for a file asks for, what is reported, whether the text is the same, whether the summaries have all imports
that the plan is about, and how often each of them is there before and after. -/
structure Account where
  edits : List Edit
  added : List Edit
  removed : List Edit
  same : Bool
  shown : Bool
  counts : List (Nat × Nat)
  deriving DecidableEq

/-- Plans and applies edits for a text that needs some names. -/
def account (m : Mapping) (symbols : List String) (text : String) : Option Account := do
  let f ← SourceFile.parse? text
  let es := plan m symbols f.tree
  let r ← (apply m es f).value.toOption
  return {
    edits := es
    added := r.added
    removed := r.removed
    same := r.file.code = f.code
    shown := ∀ e ∈ es, Shown (entriesIn f.tree) e.target ∧ Shown (entriesIn r.file.tree) e.target
    counts := es.map fun e => ((entriesIn f.tree).count e.target, (entriesIn r.file.tree).count e.target) }

theorem of_account {m : Mapping} {symbols : List String} {text : String} {a : Account}
    (h : account m symbols text = some a) :
    ∃ f r, SourceFile.parse? text = some f ∧ (apply m (plan m symbols f.tree) f).value = .ok r ∧
      plan m symbols f.tree = a.edits ∧ r.added = a.added ∧ r.removed = a.removed ∧
      decide (r.file.code = f.code) = a.same ∧
      decide (∀ e ∈ plan m symbols f.tree, Shown (entriesIn f.tree) e.target ∧ Shown (entriesIn r.file.tree) e.target) =
        a.shown ∧
      (plan m symbols f.tree).map (fun e => ((entriesIn f.tree).count e.target, (entriesIn r.file.tree).count e.target)) =
        a.counts := by
  obtain ⟨f, hf, h⟩ := Option.bind_eq_some_iff.mp h
  obtain ⟨r, hr, h⟩ := Option.bind_eq_some_iff.mp h
  cases h
  exact ⟨f, r, hf, Except.eq_ok_of_toOption hr, rfl, rfl, rfl, rfl, rfl, rfl⟩

/-- The edits that a plan makes where the fluent entry point is needed and the legacy function is imported. -/
def exchange : List Edit :=
  [⟨.add, "assertj.Assertions", some "assertThat", none⟩, ⟨.remove, "junit.Assertions", some "assertEquals", none⟩]

/-- A text that imports the legacy function and does not use it. -/
def unusedText : String := "from junit.Assertions import assertEquals\n"

/-- A text that imports the legacy function twice, and the fluent entry point inside a function. -/
def nestedText : String :=
  "from junit.Assertions import assertEquals\ndef f():\n    from junit.Assertions import assertEquals\n" ++
    "    from assertj.Assertions import assertThat\n    assertEquals(1, 2)\n"

set_option maxRecDepth 100000 in
theorem accounts :
    account .standard ["assertThat"] unusedText =
        some ⟨exchange, exchange.take 1, exchange.drop 1, false, true, [(0, 1), (1, 0)]⟩ ∧
      account .standard ["assertThat"] nestedText = some ⟨exchange, [], [], false, true, [(1, 2), (2, 1)]⟩ := by
  exact ⟨by decide +kernel, by decide +kernel⟩

/-- In `unusedText` the text changes and the report is exact. -/
theorem exact_unusedText :
    ∃ f r t, SourceFile.parse? unusedText = some f ∧ (apply .standard exchange f).value = .ok r ∧
      r.added = exchange.take 1 ∧ r.removed = exchange.drop 1 ∧ Reports exchange f t r ∧
      (r.file.code ≠ f.code ∧ ∃ e ∈ exchange, e.Acts exchange f t) ∧
      ∀ e ∈ exchange, (e.kind = .remove → (e ∈ r.removed ↔ Deletes exchange t e.target)) ∧
        (e.kind = .add → (e ∈ r.added ↔ Inserts f.tree t e.target)) := by
  obtain ⟨f, r, hf, hr, hplan, hadded, hremoved, hsame, hshown, hcounts⟩ := of_account accounts.1
  rw [hplan] at hr hshown hcounts
  obtain ⟨d, hdotted, hd⟩ := Mapping.accepted_standard.exists_dotted
  have hadds : ∀ e ∈ exchange, e.kind = .add → Wanted.Writable ⟨e.module, e.name⟩ := by
    intro e he hkind
    obtain rfl | he := List.mem_cons.mp he
    · exact ⟨⟨d, hdotted, hd⟩, fun n hn => Option.some.inj hn ▸ Mapping.accepted_standard.isName.1⟩
    · cases List.mem_singleton.mp he
      cases hkind
  obtain ⟨t, hreports, hacts, hexact⟩ := apply_exact_iff hf hadds hr
  have hchanged : r.file.code ≠ f.code := of_decide_eq_false hsame
  refine ⟨f, r, t, hf, hr, hadded, hremoved, hreports, ⟨hchanged, hacts hchanged⟩, fun e he => ?_⟩
  obtain ⟨hbefore, hafter⟩ := of_decide_eq_true hshown e he
  obtain ⟨hremove, hadd⟩ := hexact e he hbefore hafter
  obtain ⟨hfirst, hsecond⟩ := List.cons.inj hcounts
  obtain rfl | he := List.mem_cons.mp he
  · obtain ⟨hcount, hcount'⟩ := Prod.mk.inj hfirst
    refine ⟨nofun, fun hkind => (hadd hkind).mpr fun _ => ⟨List.count_eq_zero.mp hcount, ?_⟩⟩
    exact hreports.mem_after_iff.mp (List.count_pos_iff.mp (by rw [hcount']; exact Nat.one_pos))
  · cases List.mem_singleton.mp he
    obtain ⟨-, hcount'⟩ := Prod.mk.inj (List.cons.inj hsecond).1
    refine ⟨fun hkind => (hremove hkind (by decide)).mpr fun hboth => ?_, nofun⟩
    exact List.count_eq_zero.mp hcount' (hreports.mem_after_iff.mpr hboth.2)

/-- In `nestedText` an import is inserted and another one is deleted, and nothing is reported. -/
theorem unreported_nestedText :
    ∃ f r, SourceFile.parse? nestedText = some f ∧ plan .standard ["assertThat"] f.tree = exchange ∧
      (apply .standard exchange f).value = .ok r ∧ r.file.code ≠ f.code ∧ r.edits = [] ∧
      exchange.map (fun e => ((entriesIn f.tree).count e.target, (entriesIn r.file.tree).count e.target)) =
        [(1, 2), (2, 1)] := by
  obtain ⟨f, r, hf, hr, hplan, hadded, hremoved, hsame, -, hcounts⟩ := of_account accounts.2
  rw [hplan] at hr hcounts
  refine ⟨f, r, hf, hplan, hr, of_decide_eq_false hsame, ?_, hcounts⟩
  rw [Reconciled.edits, hadded, hremoved]
  rfl

end FluentShift.Imports
