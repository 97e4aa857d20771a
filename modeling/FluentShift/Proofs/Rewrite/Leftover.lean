import FluentShift.Proofs.Imports.Report
import FluentShift.Proofs.Rewrite.Imports

/-!
# FluentShift.Proofs.Rewrite.Leftover - the imports that a rewrite leaves

A rewrite that changes a call adds the fluent imports that its chains need, and then takes away the legacy imports that
nothing uses.  If the summary of the imports has all the legacy ones, the new file has every other import, and those
legacy ones that are in use (`rewrite_imports`).  If it has not, a legacy import can stay behind (`leftBehind_aliasText`).
-/

namespace FluentShift.Rewrite

open FluentShift.Source FluentShift.Scope FluentShift.Types FluentShift.Imports FluentShift.Run

/-! ### A file with new calls -/

/-- A rewritten file that got new calls has its imports edited: those wanted are added, then the unwanted ones that
nothing uses go. -/
structure Reconciles (m : Mapping) (before : Outcome) (between : Tree) (after : Outcome) : Prop where
  added : add before.file.lineBreak (wantedOf (plan m before.required before.file.tree)) before.file.closedTree =
    some between
  removed : after.file = before.file.withClosedTree
    (remove before.file.lineBreak (unwantedOf (plan m before.required before.file.tree)) between)

/-- A file with new calls needs the entry point. -/
theorem plan_ne_nil {m : Mapping} {required : List String} {t : Tree} (h : m.entryPoint ∈ required) :
    plan m required t ≠ [] := by
  intro hnil
  have hwanted := (mem_wantedOf_plan (t := t) (m := m)).mpr ⟨_, h, rfl⟩
  rw [hnil] at hwanted
  cases hwanted

theorem apply_ok {m : Mapping} {es : List Edit} {f : SourceFile} {r : Reconciled} (hes : es ≠ [])
    (h : Run.Ends (apply m es f) r) :
    ∃ t, add f.lineBreak (wantedOf es) f.closedTree = some t ∧
      r.file = f.withClosedTree (remove f.lineBreak (unwantedOf es) t) := by
  obtain ⟨t, hadd, hfile, -⟩ := apply_value hes ((apply_gives m es f).ends h)
  exact ⟨t, hadd, hfile⟩

open Run in
/-- What a rewrite comes to that changes a call. -/
theorem rewrite_ok {s : Setup} (hm : s.mapping.Accepted) {f : SourceFile} {o : Outcome}
    (h : (rewrite s f).value = .ok o) (hrewritten : o.rewritten ≠ []) :
    ∃ o₁ t, (rewriteCalls s f).value = .ok o₁ ∧ o₁.rewritten = o.rewritten ∧ Reconciles s.mapping o₁ t o := by
  obtain ⟨o₁, hcalls, hfix⟩ := (ends_of_value h).of_bind
  have hvalue : (rewriteCalls s f).value = .ok o₁ := by
    rw [(rewriteCalls_gives s f).value]
    exact (rewriteCalls_gives s f).ends hcalls
  unfold reconcileImports at hfix
  split at hfix
  · next hdone =>
    cases (gives_pure _).ends hfix
    rw [Bool.or_eq_true, List.isEmpty_iff] at hdone
    rw [(rewriteCalls_gives s f).value] at hvalue
    obtain ⟨plans, skipped, -, ⟨-, rfl⟩ | ⟨spliced, -, rfl⟩⟩ := rewriteResult_ok hvalue
    · exact absurd rfl hrewritten
    · exact absurd (hdone.resolve_right Bool.false_ne_true) hrewritten
  · obtain ⟨r, happly, hfix⟩ := hfix.of_bind
    cases (gives_pure _).ends hfix
    have hentry : s.mapping.entryPoint ∈ o₁.required := by
      obtain ⟨r, hr⟩ := List.exists_mem_of_ne_nil _ hrewritten
      exact ((rewriteCalls_accounted hm hvalue).required _).mpr ⟨r, hr, mem_requiredNames.mpr (.inl rfl)⟩
    obtain ⟨t, hadd, hfile⟩ := apply_ok (plan_ne_nil hentry) happly
    exact ⟨o₁, t, hvalue, rfl, hadd, hfile⟩

/-- Rewriting calls keeps the line break of the file. -/
theorem lineBreak_rewriteCalls {s : Setup} {f : SourceFile} {o : Outcome} (h : (rewriteCalls s f).value = .ok o) :
    o.file.lineBreak = f.lineBreak := by
  rw [(rewriteCalls_gives s f).value] at h
  obtain ⟨plans, skipped, -, ⟨-, rfl⟩ | ⟨spliced, -, rfl⟩⟩ := rewriteResult_ok h <;> rfl

/-- The names that rewritten calls need are names. -/
theorem isName_required {s : Setup} (hm : s.mapping.Accepted) {f : SourceFile} {o : Outcome}
    (h : (rewriteCalls s f).value = .ok o) : ∀ n ∈ o.required, IsName n := by
  intro n hn
  obtain ⟨r, -, hr⟩ := ((rewriteCalls_accounted hm h).required n).mp hn
  rcases mem_requiredNames.mp hr with rfl | ⟨-, rfl⟩
  · exact hm.isName.1
  · exact hm.isName.2.2.2.2.2

/-- The imports of a file with new calls: the fluent ones are added to those it had, and of those all go that are legacy
imports and not in use then. -/
theorem rewrite_imports {s : Setup} (hm : s.mapping.Accepted) {text : String} {f : SourceFile}
    (hparse : SourceFile.parse? text = some f) (hclear : Unambiguous s.mapping (entriesIn f.tree)) {o : Outcome}
    (h : (rewrite s f).value = .ok o) (hrewritten : o.rewritten ≠ []) :
    ∃ o₁ t, (rewriteCalls s f).value = .ok o₁ ∧ Reconciles s.mapping o₁ t o ∧
      (takenIn f.tree).Sublist (takenIn t) ∧
      (∀ x ∈ takenIn t, x ∈ takenIn f.tree ∨
        ∃ n ∈ o₁.required, x.entry? = some ⟨s.mapping.fluentType, some n, none⟩) ∧
      takenIn o.file.tree =
        ((located t).filter fun x => !isLegacyIn s.mapping (entriesIn f.tree) x.2 || isUsedIn t x).map Prod.snd := by
  obtain ⟨o₁, t, hcalls, -, hreconciles⟩ := rewrite_ok hm h hrewritten
  refine ⟨o₁, t, hcalls, hreconciles, ?_⟩
  obtain ⟨hadd, hremove⟩ := hreconciles
  -- rewriting calls keeps the imports of the file
  obtain ⟨ts, hts, hformed⟩ := formed_parse? hparse
  obtain ⟨us, hus, hformed₁, htaken⟩ := formed_rewriteCalls hm hts hformed hcalls
  have hentries : entriesIn o₁.file.tree = entriesIn f.tree := by rw [entriesIn, entriesIn, htaken]
  -- what is wanted are names from the fluent type
  obtain ⟨d, hdotted, hd⟩ := hm.exists_dotted
  have hbreak : IsLineBreak o₁.file.lineBreak := by
    rw [lineBreak_rewriteCalls hcalls]
    exact isLineBreak_parse? hparse
  have hwanted : ∀ w ∈ wantedOf (plan s.mapping o₁.required o₁.file.tree),
      w.Writable := by
    intro w hw
    obtain ⟨n, hn, rfl⟩ := mem_wantedOf_plan.mp hw
    exact ⟨⟨d, hdotted, hd⟩, fun k hk => Option.some.inj hk ▸ isName_required hm hcalls n hn⟩
  obtain ⟨hsub, hnew, hleft, -⟩ := taken_edited hus hformed₁ hbreak hwanted hadd
  rw [htaken] at hsub hnew
  refine ⟨hsub, fun x hx => (hnew x hx).imp id ?_, ?_⟩
  · rintro ⟨w, hw, rfl⟩
    obtain ⟨n, hn, rfl⟩ := mem_wantedOf_plan.mp hw
    exact ⟨n, hn, rfl⟩
  · rw [hremove, hleft]
    refine congrArg _ (List.filter_congr fun x _ => ?_)
    rw [isAsked_plan (hentries ▸ hclear), hentries]

/-! ### Runs -/

/-- The imports of a tree that bring in the legacy function, name by name. -/
def legacyImports (m : Mapping) (t : Tree) : List Entry :=
  ((importStatements t).flatMap fun s => entriesOf s.2).filter fun e => (legacyForms m).contains (e.module, e.name)

/-- What a rewrite leaves of the legacy imports of a text, and whether the name of each is in use in the new text. -/
structure Leftover where
  unambiguous : Bool
  rewritten : Nat
  imports : List (Entry × Bool)
  deriving DecidableEq

/-- Rewrites a text and looks for legacy imports at the top level of the new one. -/
def leftover (s : Setup) (text : String) : Option Leftover := do
  let f ← SourceFile.parse? text
  let o ← (rewrite s f).value.toOption
  let table := Table.ofModule o.file.tree
  let isUsed (e : Entry) : Bool :=
    isInUse table (exportedNames o.file.tree) 0 (e.alias_.getD (e.name.getD e.module))
  return ⟨decide (Unambiguous s.mapping (entriesIn f.tree)), o.rewritten.length,
    (legacyImports s.mapping o.file.tree).map fun e => (e, isUsed e)⟩

theorem of_leftover {s : Setup} {text : String} {r : Leftover} (h : leftover s text = some r) :
    ∃ f o, SourceFile.parse? text = some f ∧ (rewrite s f).value = .ok o ∧
      decide (Unambiguous s.mapping (entriesIn f.tree)) = r.unambiguous ∧ o.rewritten.length = r.rewritten ∧
      (legacyImports s.mapping o.file.tree).map (fun e => (e, isInUse (Table.ofModule o.file.tree)
        (exportedNames o.file.tree) 0 (e.alias_.getD (e.name.getD e.module)))) = r.imports := by
  obtain ⟨f, hf, h⟩ := Option.bind_eq_some_iff.mp h
  obtain ⟨o, ho, h⟩ := Option.bind_eq_some_iff.mp h
  cases h
  exact ⟨f, o, hf, Except.eq_ok_of_toOption ho, rfl, rfl, rfl⟩

/-- A text with two legacy imports, one of which is used by more than the call. -/
def twoFormsText : String :=
  "from junit.Assertions import assertEquals\nimport junit.Assertions as A\nassertEquals(1, 2)\nA.fail()\n"

/-- A text that imports the legacy type under two names and uses the second one. -/
def aliasText : String := "import junit.Assertions as A\nimport junit.Assertions as B\nB.assertEquals(1, 2)\n"

set_option maxRecDepth 100000 in
theorem leftovers :
    leftover plainSetup twoFormsText = some ⟨true, 1, [(⟨"junit.Assertions", none, some "A"⟩, true)]⟩ ∧
      leftover plainSetup aliasText = some ⟨false, 1, [(⟨"junit.Assertions", none, some "A"⟩, false)]⟩ := by
  simp only [leftover, (rewrite_direct (s := plainSetup) Mapping.accepted_standard chainNames_standard _).value]
  exact ⟨by decide +kernel, by decide +kernel⟩

/-- Of the imports of `twoFormsText` the one that is still in use is left. -/
theorem imports_twoFormsText :
    ∃ f o, SourceFile.parse? twoFormsText = some f ∧ (rewrite plainSetup f).value = .ok o ∧ o.rewritten.length = 1 ∧
      Unambiguous .standard (entriesIn f.tree) ∧
      legacyImports .standard o.file.tree = [⟨"junit.Assertions", none, some "A"⟩] ∧
      ∃ o₁ t, Reconciles .standard o₁ t o ∧ takenIn o.file.tree =
        ((located t).filter fun x => !isLegacyIn .standard (entriesIn f.tree) x.2 || isUsedIn t x).map Prod.snd := by
  obtain ⟨f, o, hf, ho, hclear, hlen, himports⟩ := of_leftover leftovers.1
  obtain ⟨e, heq, hpair⟩ := List.map_eq_singleton_iff.mp himports
  obtain ⟨rfl, -⟩ := Prod.mk.inj hpair
  have hrewritten : o.rewritten ≠ [] := List.ne_nil_of_length_eq_add_one hlen
  obtain ⟨o₁, t, -, hreconciles, -, -, htaken⟩ :=
    rewrite_imports (s := plainSetup) Mapping.accepted_standard hf (of_decide_eq_true hclear) ho hrewritten
  exact ⟨f, o, hf, ho, hlen, of_decide_eq_true hclear, heq, o₁, t, hreconciles, htaken⟩

/-- The first import of `aliasText` is still there after its call is rewritten, and nothing uses it. -/
theorem leftBehind_aliasText :
    ∃ f o, SourceFile.parse? aliasText = some f ∧ (rewrite plainSetup f).value = .ok o ∧ o.rewritten.length = 1 ∧
      ⟨"junit.Assertions", none, some "A"⟩ ∈ legacyImports .standard o.file.tree ∧
      isInUse (Table.ofModule o.file.tree) (exportedNames o.file.tree) 0 "A" = false := by
  obtain ⟨f, o, hf, ho, -, hlen, himports⟩ := of_leftover leftovers.2
  obtain ⟨e, heq, hpair⟩ := List.map_eq_singleton_iff.mp himports
  obtain ⟨rfl, hused⟩ := Prod.mk.inj hpair
  refine ⟨f, o, hf, ho, hlen, ?_, hused⟩
  rw [show legacyImports Mapping.standard o.file.tree = _ from heq]
  exact List.mem_singleton_self _

end FluentShift.Rewrite
