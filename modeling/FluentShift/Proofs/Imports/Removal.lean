import FluentShift.Proofs.Imports.Report

/-!
# FluentShift.Proofs.Imports.Removal - which imports a planned reconciliation takes away

Only legacy imports that nothing uses go; all other imports of a module stay, in their order (`apply_plan_keeps`).  Whether
an import is in use is asked after the fluent imports have been added, though, and what means nothing before may mean one of
them then: so an import can go that the module does use (`usedImportGoes_argumentText`).
-/

namespace FluentShift.Imports

open FluentShift.Source FluentShift.Scope FluentShift.Run

/-- Whether an import is one of the legacy ones. -/
def isLegacyTaken (m : Mapping) (x : Taken) : Bool := x.entry?.any (isLegacyEntry m)

section Plan

variable {m : Mapping} {symbols : List String} {f : SourceFile} {t : Tree}

/-- A planned removal is of a legacy import. -/
theorem isLegacyTaken_of_isAsked {x : Taken} (h : isAsked (unwantedOf (plan m symbols f.tree)) x = true) :
    isLegacyTaken m x = true := by
  obtain ⟨⟨kind, module, name, alias_⟩, he, rfl, hentry⟩ := exists_edit_of_isAsked h
  obtain ⟨-, hlegacy⟩ := remove_mem_plan.mp he
  rw [isLegacyTaken, hentry]
  exact hlegacy

/-- What a plan adds can be written. -/
theorem writable_of_plan (hm : m.Accepted) (hsymbols : ∀ n ∈ symbols, IsName n) :
    ∀ e ∈ plan m symbols f.tree, e.kind = .add → Wanted.Writable ⟨e.module, e.name⟩ := by
  intro e he hkind
  have hw : (⟨e.module, e.name⟩ : Wanted) ∈ wantedOf (plan m symbols f.tree) :=
    List.mem_map.mpr ⟨e, List.mem_filter.mpr ⟨he, decide_eq_true hkind⟩, rfl⟩
  obtain ⟨n, hn, heq⟩ := mem_wantedOf_plan.mp hw
  obtain ⟨d, hdotted, hd⟩ := hm.exists_dotted
  rw [heq]
  exact ⟨⟨d, hdotted, hd⟩, fun k hk => Option.some.inj hk ▸ hsymbols n hn⟩

/-- Imports that no edit takes away are left, in their order. -/
theorem Reports.keeps {es : List Edit} {r : Reconciled} (h : Reports es f t r) {p : Taken → Bool}
    (hp : ∀ x ∈ located t, p x.2 = true → goes es t x = false) :
    ((takenIn f.tree).filter p).Sublist (takenIn r.file.tree) := by
  have hmore : ((takenIn f.tree).filter p).Sublist (((located t).filter fun x => p x.2).map Prod.snd) := by
    have hsame : ((located t).filter fun x => p x.2).map Prod.snd = (takenIn t).filter p := by
      rw [← map_snd_located, List.filter_map]
      rfl
    rw [hsame]
    exact h.kept.filter p
  rw [h.left]
  refine hmore.trans (List.Sublist.map _ ?_)
  have hboth : (located t).filter (fun x => p x.2) = ((located t).filter fun x => !goes es t x).filter fun x => p x.2 := by
    rw [List.filter_filter]
    refine List.filter_congr fun x hx => ?_
    cases hpx : p x.2 with
    | false => rfl
    | true => rw [hp x hx hpx]; rfl
  rw [hboth]
  exact List.filter_sublist

/-- A planned reconciliation takes away only legacy imports that are not in use in the module with the fluent imports added
to it - which is the module itself where none is needed - and leaves all other imports of the module, in their order. -/
theorem apply_plan_keeps (hm : m.Accepted) (hsymbols : ∀ n ∈ symbols, IsName n) {text : String}
    (hparse : SourceFile.parse? text = some f) {r : Reconciled} (h : (apply m (plan m symbols f.tree) f).value = .ok r) :
    ∃ t, Reports (plan m symbols f.tree) f t r ∧
      (∀ x, goes (plan m symbols f.tree) t x = true → isLegacyTaken m x.2 = true ∧ isUsedIn t x = false) ∧
      ((takenIn f.tree).filter fun x => !isLegacyTaken m x).Sublist (takenIn r.file.tree) ∧
      (symbols = [] → plan m symbols f.tree ≠ [] → t = f.closedTree) := by
  have hadds := writable_of_plan (f := f) hm hsymbols
  obtain ⟨t, hreports⟩ := reports_apply hparse hadds h
  have hgoes : ∀ x, goes (plan m symbols f.tree) t x = true → isLegacyTaken m x.2 = true ∧ isUsedIn t x = false := by
    intro x hx
    rw [goes, Bool.and_eq_true, Bool.not_eq_true'] at hx
    exact ⟨isLegacyTaken_of_isAsked hx.1, hx.2⟩
  refine ⟨t, hreports, hgoes, hreports.keeps fun x _ hother => ?_, fun hnone hplan => ?_⟩
  · by_contra hgone
    obtain ⟨hlegacy, -⟩ := hgoes x ((Bool.not_eq_false _).mp hgone)
    rw [hlegacy] at hother
    cases hother
  · subst hnone
    obtain ⟨hadd, -⟩ := hreports.made hplan
    have hwanted : wantedOf (plan m [] f.tree) = [] := by
      refine List.eq_nil_iff_forall_not_mem.mpr fun w hw => ?_
      obtain ⟨n, hn, -⟩ := mem_wantedOf_plan.mp hw
      cases hn
    obtain ⟨ts, hts, hformed⟩ := formed_parse? hparse
    obtain ⟨us, hus, -, -⟩ := closedTree_spec hts hformed
    rw [hus, hwanted] at hadd
    obtain ⟨vs, preamble, leading, rest, first, later, rfl, hadded⟩ :=
      added_add (isLineBreak_parse? hparse) (List.forall_mem_nil _) hadd
    rw [hus, hadded.idle rfl]

end Plan

/-! ### Runs -/

/-- Whether a name that a text imports is in use, and what is imported before and after edits for some names. -/
def removal (m : Mapping) (symbols : List String) (name text : String) : Option (Bool × List Entry × List Entry) := do
  let f ← SourceFile.parse? text
  let r ← (apply m (plan m symbols f.tree) f).value.toOption
  return (isInUse (Table.ofModule f.tree) (exportedNames f.tree) 0 name, gather f.tree, gather r.file.tree)

theorem of_removal {m : Mapping} {symbols : List String} {name text : String} {used : Bool} {before after : List Entry}
    (h : removal m symbols name text = some (used, before, after)) :
    ∃ f r, SourceFile.parse? text = some f ∧ (apply m (plan m symbols f.tree) f).value = .ok r ∧
      isInUse (Table.ofModule f.tree) (exportedNames f.tree) 0 name = used ∧ gather f.tree = before ∧
      gather r.file.tree = after := by
  obtain ⟨f, hf, h⟩ := Option.bind_eq_some_iff.mp h
  obtain ⟨r, hr, h⟩ := Option.bind_eq_some_iff.mp h
  cases h
  exact ⟨f, r, hf, Except.eq_ok_of_toOption hr, rfl, rfl, rfl⟩

/-- A text with a legacy import that nothing uses among other imports. -/
def mixedText : String := "import os\nfrom junit.Assertions import assertEquals, fail\n"

/-- The names of `typing` as the fluent ones. -/
def typingMapping : Mapping := { Mapping.standard with fluentType := "typing" }

/-- A text that uses its import in the first argument of a call. -/
def argumentText : String := "from junit import Assertions\nTypeVar(Assertions.x)\n"

set_option maxRecDepth 100000 in
theorem removals :
    removal .standard ["assertThat"] "assertEquals" mixedText =
        some (false, [⟨"os", none, none⟩, ⟨"junit.Assertions", some "assertEquals", none⟩,
          ⟨"junit.Assertions", some "fail", none⟩],
          [⟨"os", none, none⟩, ⟨"junit.Assertions", some "fail", none⟩,
          ⟨"assertj.Assertions", some "assertThat", none⟩]) ∧
      removal typingMapping ["TypeVar"] "Assertions" argumentText =
        some (true, [⟨"junit", some "Assertions", none⟩], [⟨"typing", some "TypeVar", none⟩]) :=
  ⟨by decide +kernel, by decide +kernel⟩

/-- From `mixedText` the legacy import goes and the others stay. -/
theorem keeps_mixedText :
    ∃ f r t, SourceFile.parse? mixedText = some f ∧ (apply .standard (plan .standard ["assertThat"] f.tree) f).value = .ok r ∧
      Reports (plan .standard ["assertThat"] f.tree) f t r ∧
      ((takenIn f.tree).filter fun x => !isLegacyTaken .standard x).Sublist (takenIn r.file.tree) ∧
      gather r.file.tree = [⟨"os", none, none⟩, ⟨"junit.Assertions", some "fail", none⟩,
        ⟨"assertj.Assertions", some "assertThat", none⟩] := by
  obtain ⟨f, r, hf, hr, -, -, hafter⟩ := of_removal removals.1
  obtain ⟨t, hreports, -, hkept, -⟩ := apply_plan_keeps Mapping.accepted_standard
    (List.forall_mem_singleton.mpr Mapping.accepted_standard.isName.1) hf hr
  exact ⟨f, r, t, hf, hr, hreports, hkept, hafter⟩

/-- `argumentText` uses its import, and loses it. -/
theorem usedImportGoes_argumentText :
    ∃ f r, SourceFile.parse? argumentText = some f ∧
      (apply typingMapping (plan typingMapping ["TypeVar"] f.tree) f).value = .ok r ∧
      isInUse (Table.ofModule f.tree) (exportedNames f.tree) 0 "Assertions" = true ∧
      gather f.tree = [⟨"junit", some "Assertions", none⟩] ∧ gather r.file.tree = [⟨"typing", some "TypeVar", none⟩] :=
  of_removal removals.2

end FluentShift.Imports
