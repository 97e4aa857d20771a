import FluentShift.Proofs.Rewrite.Accounting
import FluentShift.Proofs.Source.Items
import FluentShift.Proofs.Source.Spacing

/-!
# FluentShift.Proofs.Rewrite.Repeat - when a second run changes nothing

A run on a text rewrites no call and gives the text back exactly when none of its collected calls can be rewritten
(`repeats_iff_settled`).  A first run does not always leave such a text: an import that it removes may have held the
name that a call was skipped for.
-/

namespace FluentShift.Rewrite

open FluentShift.Source FluentShift.Source.Tree FluentShift.Scope FluentShift.Types FluentShift.Imports

variable {m : Mapping} {plans : List (Path × Classification)}

/-! ### No expression runs into a keyword -/

/-- No expression of the tree runs into a keyword before it. -/
def Unclashed (t : Tree) : Prop := ∀ r k ts, t.at? r = some (.node k ts) → spacingClash k ts = none

theorem unclashed_leaf (l : Leaf) : Unclashed (.leaf l) := by
  intro r k ts h
  cases r with
  | nil => cases h
  | cons i r => rw [at?_leaf_cons] at h; cases h

theorem Unclashed.self {k : Kind} {ts : List Tree} (h : Unclashed (.node k ts)) : spacingClash k ts = none :=
  h [] k ts rfl

theorem Unclashed.child {k : Kind} {ts : List Tree} (h : Unclashed (.node k ts)) {t : Tree} (ht : t ∈ ts) :
    Unclashed t := by
  intro r k' us hat
  obtain ⟨i, hi⟩ := List.mem_iff_getElem?.mp ht
  refine h (r ++ [i]) k' us ?_
  rw [at?_node_concat, hi]
  exact hat

theorem unclashed_node {k : Kind} {ts : List Tree} (hself : spacingClash k ts = none) (h : ∀ t ∈ ts, Unclashed t) :
    Unclashed (.node k ts) := by
  intro r k' us hat
  rcases List.eq_nil_or_concat' r with rfl | ⟨r, i, rfl⟩
  · cases hat
    exact hself
  · rw [at?_node_concat] at hat
    obtain ⟨t, hi, hat⟩ := Option.bind_eq_some_iff.mp hat
    exact h t (List.mem_of_getElem? hi) r k' us hat

/-- Where words stand apart, no keyword is run into. -/
theorem spacingClash_eq_none {k : Kind} {ts : List Tree} (h : Spaced (spine (leavesAll ts))) :
    spacingClash k ts = none := by
  induction ts with
  | nil => rfl
  | cons a ts ih =>
    have hrest : Spaced (spine (leavesAll ts)) := by
      rw [show leavesAll (a :: ts) = a.leaves ++ leavesAll ts from rfl, spine_append] at h
      exact h.right
    cases ts with
    | nil => rfl
    | cons b ts =>
      cases a with
      | node k' us => exact ih hrest
      | leaf l =>
        unfold spacingClash
        refine (if_neg ?_).trans (ih hrest)
        intro hclash
        simp only [Bool.and_eq_true, decide_eq_true_eq] at hclash
        obtain ⟨⟨⟨hmark, hstart⟩, -⟩, hnext⟩ := hclash
        have hne : l.text ≠ "" := by
          intro hempty
          rw [show startsWithWord (.leaf l) = startsName l.text.toList from rfl, hempty] at hstart
          cases hstart
        rw [show leavesAll (.leaf l :: b :: ts) = l :: leavesAll (b :: ts) from rfl, spine_cons, if_neg hne,
          List.singleton_append] at h
        have hafter := h.1 (by simp [hmark]) hstart
        rw [flatMap_spine, show leavesAll (b :: ts) = b.leaves ++ leavesAll ts from rfl, List.flatMap_append,
          ← text_toList] at hafter
        have hnext : startsName b.text.toList = true := hnext
        rw [startsName_append hafter] at hnext
        cases hnext

theorem unclashed_of_spaced {t : Tree} (h : Spaced (spine t.leaves)) : Unclashed t := by
  induction t using induct with
  | leaf l => exact unclashed_leaf l
  | node k ts ih => exact unclashed_node (spacingClash_eq_none h) fun t ht => ih t ht (spaced_child h ht)

theorem spacingClash_leaf (k : Kind) (l : Leaf) (b : Tree) (ts : List Tree) :
    spacingClash k (.leaf l :: b :: ts) =
      if l.kind = .mark && startsWithWord (.leaf l) && !b.isTrivia && startsWithWord b then some (spacingFault k l.text)
      else spacingClash k (b :: ts) := rfl

/-- Trivia is not run into. -/
theorem spacingClash_trivia {k : Kind} {a b : Tree} {ts : List Tree} (hb : b.isTrivia = true) :
    spacingClash k (a :: b :: ts) = spacingClash k (b :: ts) := by
  cases a with
  | node k' us => rfl
  | leaf l =>
    rw [spacingClash_leaf, hb]
    exact if_neg (by simp)

theorem spacingClash_append_trivia {k : Kind} (ts : List Tree) {tail : List Tree} (h : ∀ t ∈ tail, t.isTrivia = true) :
    spacingClash k (ts ++ tail) = spacingClash k ts := by
  have htail : spacingClash k tail = none := by
    induction tail with
    | nil => rfl
    | cons a tail ih =>
      have hrest := ih fun t ht => h t (List.mem_cons_of_mem _ ht)
      cases tail with
      | nil => rfl
      | cons b tail =>
        rw [spacingClash_trivia (h b (List.mem_cons_of_mem _ (List.mem_cons_self ..)))]
        exact hrest
  induction ts with
  | nil => exact htail
  | cons a ts ih =>
    cases ts with
    | nil =>
      cases tail with
      | nil => rfl
      | cons b tail => exact (spacingClash_trivia (h b (List.mem_cons_self ..))).trans htail
    | cons b ts =>
      cases a with
      | node k' us => exact ih
      | leaf l =>
        show spacingClash k (.leaf l :: b :: (ts ++ tail)) = _
        rw [spacingClash_leaf, spacingClash_leaf, show spacingClash k (b :: (ts ++ tail)) = _ from ih]

/-! ### The end of a file -/

/-- Dropping lines after the last statement brings nothing together. -/
theorem unclashed_trimEnd {t : Tree} (h : Spaced (spine t.leaves)) : Unclashed (trimEnd t) := by
  rcases trimEnd_cases t with heq | ⟨kept, hkept, heq⟩
  · rw [heq]
    exact unclashed_of_spaced h
  · cases t with
    | leaf l =>
      rw [heq, show kept = [] from List.sublist_nil.mp hkept]
      exact unclashed_node rfl fun _ ht => absurd ht List.not_mem_nil
    | node k ts =>
      rw [heq]
      have hflat : Item.flatten (items ts).1 ++ (items ts).2 = ts := items_flatten ts
      refine unclashed_node ?_ fun u hu => ?_
      · have hstatements : Spaced (spine (leavesAll (Item.flatten (items ts).1))) := by
          rw [show (Source.Tree.node k ts).leaves = leavesAll ts from rfl, ← hflat, leavesAll_append, spine_append] at h
          exact h.left
        rw [spacingClash_append_trivia _ fun u hu => isTrivia_items u (hkept.subset hu)]
        exact spacingClash_eq_none hstatements
      · refine unclashed_of_spaced (spaced_child h ?_)
        rw [← hflat]
        rcases List.mem_append.mp hu with hu | hu
        · exact List.mem_append_left _ hu
        · exact List.mem_append_right _ (hkept.subset hu)

/-- In a file no expression runs into a keyword before it. -/
theorem unclashed_parse? {text : String} {f : SourceFile} (h : SourceFile.parse? text = some f) : Unclashed f.tree := by
  obtain ⟨t, ht, h⟩ := Option.bind_eq_some_iff.mp h
  cases h
  exact unclashed_trimEnd (spaced_parseModule? ht)

/-! ### A splicing without chains -/

/-- Where every planned call has comments around its arguments, splicing changes nothing. -/
theorem spliceFrom_commented {t : Tree} {p : Path} (hclash : Unclashed t)
    (hcom : ∀ n ∈ t.nodesFrom (fun _ => true) p, (plans.lookup n.1).isSome = true → hasArgumentComments n.2 = true) :
    ∃ failed, spliceFrom m plans t p = .ok ⟨t, [], failed⟩ := by
  induction t using induct generalizing p with
  | leaf l => exact ⟨[], rfl⟩
  | node k ts ih =>
    -- child after child, with what failed so far
    have hall : ∀ cs : List (Path × Tree), cs ⊆ locate p ts →
        ∃ failed, spliceAll (cs.map fun c => (c.1, spliceFrom m plans c.2)) = .ok (cs.map Prod.snd, [], failed) := by
      intro cs
      induction cs with
      | nil => exact fun _ => ⟨[], rfl⟩
      | cons c cs ihs =>
        intro hsub
        have hc : c ∈ locate p ts := hsub (List.mem_cons_self ..)
        obtain ⟨failed, hfailed⟩ := ih c.2 (mem_of_mem_locate hc) (hclash.child (mem_of_mem_locate hc))
          fun n hn => hcom n (mem_nodesFrom_child hc hn)
        obtain ⟨rest, hrest⟩ := ihs fun x hx => hsub (List.mem_cons_of_mem _ hx)
        refine ⟨failed ++ rest, ?_⟩
        exact Except.bind_eq_ok.mpr ⟨_, hfailed, Except.bind_eq_ok.mpr ⟨_, hrest, rfl⟩⟩
    obtain ⟨failed, hfailed⟩ := hall (locate p ts) fun _ h => h
    rw [map_snd_locate] at hfailed
    -- the children are as before, and a planned call refuses its chain
    have hnode : ∃ failed', spliceNode m plans k p ts [] failed = .ok ⟨.node k ts, [], failed'⟩ := by
      unfold spliceNode
      rw [hclash.self]
      cases hp : plans.lookup p with
      | none => exact ⟨failed, rfl⟩
      | some c =>
        obtain ⟨f, hf, htrans⟩ := emit_commented (m := m) (c := c)
          (hcom (p, .node k ts) (mem_nodesFrom_self k ts p) (by rw [hp]; rfl))
        refine ⟨failed ++ [(p, f.message)], ?_⟩
        simp only [hf, htrans, if_true]
    obtain ⟨failed', hfailed'⟩ := hnode
    refine ⟨failed', ?_⟩
    rw [spliceFrom_node]
    exact Except.bind_eq_ok.mpr ⟨_, hfailed, hfailed'⟩

/-! ### A rewrite without rewritten calls -/

/-- Every collected call is planned or skipped; none of them fails the rewrite. -/
theorem exists_decideIn {s : Setup} {f : SourceFile} (hm : s.mapping.Accepted) (c : CallSite) :
    ∃ d, decideIn s f c = .ok d := by
  unfold decideIn decideCall
  split
  · exact ⟨_, rfl⟩
  · by_cases harity : 2 ≤ (tagsOf s f c).length ∧ (tagsOf s f c).length ≤ 4
    · obtain ⟨k, hk⟩ := exists_classify hm harity
      rw [hk]
      simp only
      split
      · exact ⟨_, rfl⟩
      · exact ⟨_, rfl⟩
    · obtain ⟨e, he, htrans⟩ := classify_error (m := s.mapping) harity
      rw [he]
      simp only [htrans, if_true]
      exact ⟨_, rfl⟩

theorem exists_planSites {decide : CallSite → Except Failure (Rewritten ⊕ Skipped)}
    (h : ∀ c, ∃ d, decide c = .ok d) (cs : List CallSite) : ∃ plans skipped, planSites decide cs = .ok (plans, skipped) := by
  induction cs with
  | nil => exact ⟨[], [], rfl⟩
  | cons c cs ih =>
    obtain ⟨plans, skipped, hrest⟩ := ih
    obtain ⟨d, hd⟩ := h c
    cases d with
    | inl r => exact ⟨r :: plans, skipped, Except.bind_eq_ok.mpr ⟨_, hd, Except.bind_eq_ok.mpr ⟨_, hrest, rfl⟩⟩⟩
    | inr k => exact ⟨plans, k :: skipped, Except.bind_eq_ok.mpr ⟨_, hd, Except.bind_eq_ok.mpr ⟨_, hrest, rfl⟩⟩⟩

/-- Where no collected call can be rewritten, the rewrite succeeds and rewrites none. -/
theorem exists_rewriteResult {s : Setup} {f : SourceFile} (hm : s.mapping.Accepted) (hclash : Unclashed f.tree)
    (hsites : ∀ c ∈ sitesOf s f, ¬Rewritable s f c) :
    ∃ o, rewriteResult s f = .ok o ∧ o.rewritten = [] ∧ o.edits = [] := by
  obtain ⟨plans, skipped, hplans⟩ := exists_planSites (exists_decideIn (s := s) (f := f) hm) (sitesOf s f)
  unfold rewriteResult
  split
  · exact ⟨_, rfl, rfl, rfl⟩
  · rw [hplans]
    show ∃ o, (if plans.isEmpty then _ else _) = _ ∧ _
    split
    · exact ⟨_, rfl, rfl, rfl⟩
    · -- a planned call that cannot be rewritten has comments around its arguments
      have hcom : ∀ n ∈ f.tree.nodesFrom (fun _ => true) [], ((planKeys plans).lookup n.1).isSome = true →
          hasArgumentComments n.2 = true := by
        intro n hn hplan
        obtain ⟨c, hc⟩ := Option.isSome_iff_exists.mp hplan
        obtain ⟨r, hr, hpath, -⟩ := exists_of_lookup_planKeys hc
        rw [eq_of_mem_nodesFrom hn (hpath ▸ (call_of_plan hplans hr).1)]
        by_contra hclean
        exact hsites r.site (site_mem_of_plan hplans hr) ⟨plannable_of_plan hplans hr, by simpa using hclean⟩
      obtain ⟨failed, hfailed⟩ := spliceFrom_commented (m := s.mapping) hclash hcom
      rw [splice_eq, hfailed]
      refine ⟨_, rfl, ?_, rfl⟩
      show plans.filter _ = []
      exact List.filter_eq_nil_iff.mpr fun r _ => by simp

/-! ### Whole texts -/

/-- The text can be read, and none of its collected calls can be rewritten. -/
def Settled (s : Setup) (text : String) : Prop :=
  ∃ f, SourceFile.parse? text = some f ∧ ∀ c ∈ sitesOf s f, ¬Rewritable s f c

/-- A run on the text changes nothing, and gives the text back. -/
def Repeats (s : Setup) (text : String) : Prop :=
  ∃ o, (migrateWithOutcome s text).value = .ok (text, o) ∧ o.changed = false

theorem readSource_eq {code : String} {f : SourceFile} (h : SourceFile.parse? code = some f) (file : String) :
    (readSource code file).value = .ok f := by
  rw [readSource, h]
  rfl

theorem readSource_error {code : String} (h : SourceFile.parse? code = none) (file : String) :
    (readSource code file).value = .error (.parse "Failed to parse source" file none none) := by
  rw [readSource, h]
  rfl

theorem parse?_of_readSource {code file : String} {f : SourceFile} (h : (readSource code file).value = .ok f) :
    SourceFile.parse? code = some f := by
  cases hparse : SourceFile.parse? code with
  | none =>
    rw [readSource_error hparse] at h
    cases h
  | some f' =>
    rw [readSource_eq hparse] at h
    cases h
    rfl

open Run in
/-- Fixing the imports keeps the calls, and edits imports only where a call was rewritten. -/
theorem reconcileImports_ok {m : Mapping} {o o' : Outcome} (h : (reconcileImports m o).value = .ok o') :
    o'.rewritten = o.rewritten ∧ o'.skipped = o.skipped ∧ (o.rewritten = [] → o'.edits = o.edits) := by
  have hends := ends_of_value h
  unfold reconcileImports at hends
  split at hends
  · cases (gives_pure _).ends hends
    exact ⟨rfl, rfl, fun _ => rfl⟩
  · rename_i hsome
    obtain ⟨r, -, hends⟩ := hends.of_bind
    cases (gives_pure _).ends hends
    exact ⟨rfl, rfl, fun hnone => absurd hnone (by simp_all)⟩

open Run in
/-- Migrating a text reads it, rewrites the calls and fixes the imports. -/
theorem value_migrateWithOutcome (s : Setup) (code : String) :
    (migrateWithOutcome s code).value = do
      let f ← (readSource code "<string>").value
      let o ← (rewriteCalls s f).value
      let o ← (reconcileImports s.mapping o).value
      return (if o.changed then o.file.code else code, o) := by
  refine Gives.value ((readSource_gives code "<string>").bind fun f => ?_)
  have hcalls : Gives (rewriteCalls s f) (rewriteCalls s f).value := by
    rw [(rewriteCalls_gives s f).value]
    exact rewriteCalls_gives s f
  have h := (hcalls.bind fun o => reconcileImports_gives s.mapping o).bind
    fun o => gives_pure (if o.changed then o.file.code else code, o)
  rwa [bind_assoc (rewriteCalls s f).value] at h

/-- What a run comes to: it reads the text, rewrites its calls and fixes the imports. -/
theorem migrateWithOutcome_ok {s : Setup} {code out : String} {o : Outcome}
    (h : (migrateWithOutcome s code).value = .ok (out, o)) :
    ∃ f o', SourceFile.parse? code = some f ∧ (rewriteCalls s f).value = .ok o' ∧
      (reconcileImports s.mapping o').value = .ok o ∧ out = if o.changed then o.file.code else code := by
  rw [value_migrateWithOutcome] at h
  obtain ⟨f, hread, h⟩ := Except.bind_eq_ok.mp h
  obtain ⟨o', hcalls, h⟩ := Except.bind_eq_ok.mp h
  obtain ⟨o₁, hfix, h⟩ := Except.bind_eq_ok.mp h
  cases h
  exact ⟨f, o', parse?_of_readSource hread, hcalls, hfix, rfl⟩

/-- A run changes something exactly when it rewrites a call. -/
theorem changed_iff_rewritten {s : Setup} {code out : String} {o : Outcome}
    (h : (migrateWithOutcome s code).value = .ok (out, o)) : o.changed = true ↔ o.rewritten ≠ [] := by
  obtain ⟨f, o', -, hcalls, hfix, -⟩ := migrateWithOutcome_ok h
  obtain ⟨hrewritten, -, hedits⟩ := reconcileImports_ok hfix
  rw [(rewriteCalls_gives s f).value] at hcalls
  have hnone : o'.edits = [] := by
    obtain ⟨plans, skipped, -, ⟨-, rfl⟩ | ⟨spliced, -, rfl⟩⟩ := rewriteResult_ok hcalls <;> rfl
  refine ⟨fun hchanged hnil => ?_, fun hne => by simp [Outcome.changed, hne]⟩
  rw [Outcome.changed, hnil, hedits (hrewritten ▸ hnil), hnone] at hchanged
  cases hchanged

open Run in
/-- A run gives a text back, and changes nothing, exactly when no collected call of the text can be rewritten. -/
theorem repeats_iff_settled {s : Setup} {text : String} (hm : s.mapping.Accepted) : Repeats s text ↔ Settled s text := by
  constructor
  · rintro ⟨o, ho, hchanged⟩
    obtain ⟨f, o', hparse, hvalue, hfix, -⟩ := migrateWithOutcome_ok ho
    refine ⟨f, hparse, fun c hc hrewritable => ?_⟩
    have hmem := ((rewriteCalls_accounted hm hvalue).rewritten_iff c hc).mpr hrewritable
    have hnil : o'.rewritten = [] := by
      rw [← (reconcileImports_ok hfix).1]
      by_contra hsome
      rw [(changed_iff_rewritten ho).mpr hsome] at hchanged
      cases hchanged
    rw [hnil] at hmem
    cases hmem
  · rintro ⟨f, hparse, hsites⟩
    obtain ⟨o, ho, hnil, hedits⟩ := exists_rewriteResult hm (unclashed_parse? hparse) hsites
    have hchanged : o.changed = false := by simp [Outcome.changed, hnil, hedits]
    have hcalls : (rewriteCalls s f).value = .ok o := (rewriteCalls_gives s f).value.trans ho
    have hfix : (reconcileImports s.mapping o).value = .ok o := by
      rw [reconcileImports, hnil]
      rfl
    refine ⟨o, ?_, hchanged⟩
    rw [value_migrateWithOutcome, readSource_eq hparse]
    show ((rewriteCalls s f).value >>= _) = _
    rw [hcalls]
    show ((reconcileImports s.mapping o).value >>= _) = _
    rw [hfix]
    show Except.ok (if o.changed then o.file.code else text, o) = _
    rw [hchanged]
    rfl

theorem migrateSource_of_outcome {s : Setup} {code out : String} {o : Outcome}
    (h : (migrateWithOutcome s code).value = .ok (out, o)) : (migrateSource s code).value = .ok out := by
  rw [migrateSource, Run.value_map, h]
  rfl

/-- A run that changes nothing gives its text back. -/
theorem out_of_unchanged {s : Setup} {code out : String} {o : Outcome}
    (h : (migrateWithOutcome s code).value = .ok (out, o)) (hchanged : o.changed = false) : out = code := by
  obtain ⟨f, o', -, -, -, hout⟩ := migrateWithOutcome_ok h
  rw [hout, hchanged]
  rfl

/-- A second run, on the text that a first one returned, changes nothing and gives that text back exactly when none of
the calls that are still collected in it can be rewritten.  So it is after a first run that changed nothing, which is one on
a text of which no collected call can be rewritten. -/
theorem migrateWithOutcome_twice {s : Setup} {code out : String} {o : Outcome} (hm : s.mapping.Accepted)
    (h : (migrateWithOutcome s code).value = .ok (out, o)) :
    (Repeats s out ↔ Settled s out) ∧ (Settled s out → (migrateSource s out).value = .ok out) ∧
      (o.changed = false → out = code ∧ Settled s out) ∧ (o.changed = false ↔ Settled s code) := by
  refine ⟨repeats_iff_settled hm, fun hsettled => ?_, fun hchanged => ?_, fun hchanged => ?_, fun hsettled => ?_⟩
  · obtain ⟨o', ho', -⟩ := (repeats_iff_settled hm).mpr hsettled
    exact migrateSource_of_outcome ho'
  · obtain rfl := out_of_unchanged h hchanged
    exact ⟨rfl, (repeats_iff_settled hm).mp ⟨o, h, hchanged⟩⟩
  · obtain rfl := out_of_unchanged h hchanged
    exact (repeats_iff_settled hm).mp ⟨o, h, hchanged⟩
  · obtain ⟨o', ho', hchanged⟩ := (repeats_iff_settled hm).mpr hsettled
    obtain ⟨-, rfl⟩ := Prod.mk.inj (Except.ok.inj (h.symm.trans ho'))
    exact hchanged

/-! ### Runs -/

/-- What a run on a text comes to: the new text, and whether anything changed. -/
def runOn (s : Setup) (text : String) : Option (String × Bool) :=
  (migrateWithOutcome s text).value.toOption.map fun r => (r.1, r.2.changed)

theorem runOn_plainSetup (text : String) :
    runOn plainSetup text = (directMigrate plainSetup text).toOption.map fun r => (r.1, r.2.changed) := by
  rw [runOn, migrateWithOutcome_direct (s := plainSetup) Mapping.accepted_standard chainNames_standard]

theorem of_runOn {s : Setup} {text out : String} {changed : Bool} (h : runOn s text = some (out, changed)) :
    ∃ o, (migrateWithOutcome s text).value = .ok (out, o) ∧ o.changed = changed := by
  obtain ⟨⟨out', o⟩, ho, heq⟩ := Option.map_eq_some_iff.mp h
  cases heq
  exact ⟨o, Except.eq_ok_of_toOption ho, rfl⟩

/-- A text with a call that has too few arguments, and a call of two arguments. -/
def shortText : String := "from junit.Assertions import assertEquals as eq\neq(1)\neq(1, 2)\n"

/-- `shortText` after a run. -/
def shortOnce : String :=
  "from junit.Assertions import assertEquals as eq\nfrom assertj.Assertions import assertThat\n\neq(1)\n" ++
    "assertThat(2).isEqualTo(1)\n"

set_option maxRecDepth 100000 in
theorem runs_shortText :
    runOn plainSetup shortText = some (shortOnce, true) ∧ runOn plainSetup shortOnce = some (shortOnce, false) := by
  rw [runOn_plainSetup, runOn_plainSetup]
  exact ⟨by decide +kernel, by decide +kernel⟩

/-- A second run leaves the call of `shortText` that the first one skipped, and everything else. -/
theorem twice_shortText :
    ∃ o, (migrateWithOutcome plainSetup shortText).value = .ok (shortOnce, o) ∧ o.changed = true ∧
      Settled plainSetup shortOnce ∧ (migrateSource plainSetup shortOnce).value = .ok shortOnce := by
  obtain ⟨o, ho, hchanged⟩ := of_runOn runs_shortText.1
  obtain ⟨hiff, hsource, -, -⟩ := migrateWithOutcome_twice Mapping.accepted_standard ho
  have hsettled := hiff.mp (of_runOn runs_shortText.2)
  exact ⟨o, ho, hchanged, hsettled, hsource hsettled⟩

/-- A text where a legacy import holds the name that one of the chains needs. -/
def conflictText : String :=
  "from junit.Assertions import assertEquals\nfrom junit.Assertions import assertEquals as within\n" ++
    "assertEquals(1, x, 0.1)\nwithin(1, x)\n"

/-- `conflictText` after a run, which skips the first call and takes the import away. -/
def conflictOnce : String :=
  "from junit.Assertions import assertEquals\nfrom assertj.Assertions import assertThat\n\n" ++
    "assertEquals(1, x, 0.1)\nassertThat(x).isEqualTo(1)\n"

/-- `conflictText` after two runs. -/
def conflictTwice : String :=
  "from assertj.Assertions import within, assertThat\n\nassertThat(x).isCloseTo(1, within(0.1))\n" ++
    "assertThat(x).isEqualTo(1)\n"

set_option maxRecDepth 100000 in
theorem runs_conflictText :
    runOn plainSetup conflictText = some (conflictOnce, true) ∧
      runOn plainSetup conflictOnce = some (conflictTwice, true) := by
  rw [runOn_plainSetup, runOn_plainSetup]
  exact ⟨by decide +kernel, by decide +kernel⟩

/-- A second run on `conflictText` does change what the first one returned. -/
theorem twice_conflictText :
    (migrateSource plainSetup conflictText).value = .ok conflictOnce ∧
      (migrateSource plainSetup conflictOnce).value = .ok conflictTwice ∧ conflictTwice ≠ conflictOnce := by
  obtain ⟨o, ho, -⟩ := of_runOn runs_conflictText.1
  obtain ⟨o', ho', -⟩ := of_runOn runs_conflictText.2
  exact ⟨migrateSource_of_outcome ho, migrateSource_of_outcome ho', by decide +kernel⟩

end FluentShift.Rewrite
