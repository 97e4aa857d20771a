import FluentShift.Imports.Reconcile
import FluentShift.Proofs.Imports.Pruning

/-!
# FluentShift.Proofs.Imports.Plan - what a plan asks for

A plan asks every legacy import to go that the summary of the imports has.  That is every legacy import of the module,
unless it has the legacy type under several names, or takes a legacy name from a module that it takes everything from
(`asked_plan`).
-/

namespace FluentShift.Imports

open FluentShift.Source FluentShift.Source.Tree FluentShift.Scope

/-! ### The summary of the imports -/

/-- The entry that an import is in a summary; imports relative to the package have none. -/
def Taken.entry? (x : Taken) : Option Entry :=
  match x.source, x.name with
  | none, some n => some ⟨n.name, none, n.alias_⟩
  | none, none => none
  | some m, n =>
    if m.dots ≠ 0 then none
    else match n with
      | some n => some ⟨m.name.getD "", some n.name, n.alias_⟩
      | none => some ⟨m.name.getD "", some "*", none⟩

/-- The entries of the imports of a tree. -/
def entriesIn (t : Tree) : List Entry := (takenIn t).filterMap Taken.entry?

theorem moduleName_absolute {i : ImportStatement} {m : FromModule} (hi : i.source = some m) (hm : m.dots = 0) :
    i.moduleName = m.name.getD "" := by
  rw [ImportStatement.moduleName, hi]
  dsimp only
  rw [hm]
  exact String.empty_append

theorem entriesOf_eq (i : ImportStatement) : entriesOf i = (takenBy i).filterMap Taken.entry? := by
  obtain ⟨source, imported⟩ := i
  cases source with
  | none => cases imported <;> simp [entriesOf, takenBy, Taken.entry?, ImportStatement.list, List.filterMap_map, Function.comp_def]
  | some m =>
    by_cases hm : m.dots = 0
    · have hname := fun imported => moduleName_absolute (i := ⟨some m, imported⟩) rfl hm
      cases imported <;> simp [entriesOf, takenBy, Taken.entry?, hm, hname, List.filterMap_map, Function.comp_def]
    · cases imported <;> simp [entriesOf, takenBy, Taken.entry?, hm]

theorem entriesIn_eq (t : Tree) : (importStatements t).flatMap (fun s => entriesOf s.2) = entriesIn t := by
  have hstatements : (importStatements t).map Prod.snd = importsIn t := rfl
  rw [entriesIn, takenIn, ← hstatements, List.flatMap_map, List.filterMap_flatMap]
  exact List.flatMap_congr fun s _ => entriesOf_eq s.2

/-- Whether an entry is an import that brings the legacy function in. -/
def isLegacyEntry (m : Mapping) (e : Entry) : Bool := e.name ≠ some "*" && (legacyForms m).contains (e.module, e.name)

/-- The legacy type is imported under one name at most, and no legacy name is taken plainly from a module that everything
is taken from: then a summary leaves no legacy import out. -/
structure Unambiguous (m : Mapping) (es : List Entry) : Prop where
  oneName : ∀ e ∈ es, ∀ e' ∈ es, isLegacyEntry m e → isLegacyEntry m e' → e.name = none → e'.name = none → e = e'
  unstarred : ∀ e ∈ es, isLegacyEntry m e → e.name ≠ none → e.alias_ = none → ⟨e.module, some "*", none⟩ ∉ es

instance (m : Mapping) (es : List Entry) : Decidable (Unambiguous m es) :=
  have : Decidable (∀ e ∈ es, ∀ e' ∈ es, isLegacyEntry m e → isLegacyEntry m e' → e.name = none → e'.name = none → e = e') :=
    inferInstance
  have : Decidable (∀ e ∈ es, isLegacyEntry m e → e.name ≠ none → e.alias_ = none → ⟨e.module, some "*", none⟩ ∉ es) :=
    inferInstance
  decidable_of_iff (_ ∧ _) ⟨fun h => ⟨h.1, h.2⟩, fun h => ⟨h.oneName, h.unstarred⟩⟩

/-- Of two imports of one module, both are legacy ones or none. -/
theorem isLegacyEntry_congr {m : Mapping} {e e' : Entry} (hmodule : e.module = e'.module) (hname : e.name = e'.name) :
    isLegacyEntry m e = isLegacyEntry m e' := by
  unfold isLegacyEntry
  rw [hmodule, hname]

/-- A summary has this entry if there is one: it is no alias of a module with other aliases, and no name that a star stands
for. -/
structure Shown (es : List Entry) (e : Entry) : Prop where
  oneAlias : e.name = none → e.alias_ ≠ none → ∀ e' ∈ es, e'.module = e.module → e'.name = none → e'.alias_ ≠ none → e' = e
  unstarred : e.name ≠ none → e.name ≠ some "*" → e.alias_ = none → ⟨e.module, some "*", none⟩ ∉ es

instance (es : List Entry) (e : Entry) : Decidable (Shown es e) :=
  have : Decidable (e.name = none → e.alias_ ≠ none →
      ∀ e' ∈ es, e'.module = e.module → e'.name = none → e'.alias_ ≠ none → e' = e) := inferInstance
  have : Decidable (e.name ≠ none → e.name ≠ some "*" → e.alias_ = none → ⟨e.module, some "*", none⟩ ∉ es) :=
    inferInstance
  decidable_of_iff (_ ∧ _) ⟨fun h => ⟨h.1, h.2⟩, fun h => ⟨h.oneAlias, h.unstarred⟩⟩

/-- A summary invents no imports. -/
theorem of_mem_gather {t : Tree} {e : Entry} (h : e ∈ gather t) : e ∈ entriesIn t := by
  unfold gather at h
  rw [entriesIn_eq] at h
  exact (List.mem_filter.mp (List.mem_eraseDups.mp h)).1

theorem mem_gather_of_shown {t : Tree} {e : Entry} (h : Shown (entriesIn t) e) : e ∈ gather t ↔ e ∈ entriesIn t := by
  refine ⟨of_mem_gather, fun hmem => ?_⟩
  unfold gather
  rw [entriesIn_eq]
  generalize entriesIn t = es at h hmem
  dsimp only
  rw [List.mem_eraseDups, List.mem_filter]
  refine ⟨hmem, ?_⟩
  split
  · next hmodule =>
    -- all aliases of the module are the same
    obtain ⟨hnone, hsome⟩ := (Bool.and_eq_true _ _).mp hmodule
    refine decide_eq_true ?_
    have hall : ∀ e' ∈ es.filter (fun e' => (e'.name.isNone && e'.alias_.isSome) && decide (e'.module = e.module)), e' = e := by
      intro e' he'
      obtain ⟨hmem', hpred⟩ := List.mem_filter.mp he'
      obtain ⟨hmodule', hsame⟩ := (Bool.and_eq_true _ _).mp hpred
      obtain ⟨hnone', hsome'⟩ := (Bool.and_eq_true _ _).mp hmodule'
      exact h.oneAlias (Option.isNone_iff_eq_none.mp hnone) (Option.isSome_iff_ne_none.mp hsome) e' hmem'
        (of_decide_eq_true hsame) (Option.isNone_iff_eq_none.mp hnone') (Option.isSome_iff_ne_none.mp hsome')
    have hself : e ∈ es.filter (fun e' => (e'.name.isNone && e'.alias_.isSome) && decide (e'.module = e.module)) :=
      List.mem_filter.mpr ⟨hmem, (Bool.and_eq_true _ _).mpr ⟨hmodule, decide_eq_true rfl⟩⟩
    cases hlast : (es.filter fun e' => (e'.name.isNone && e'.alias_.isSome) && decide (e'.module = e.module)).getLast? with
    | none =>
      rw [List.getLast?_eq_none_iff.mp hlast] at hself
      cases hself
    | some e' => exact congrArg some (hall e' (List.mem_of_getLast? hlast))
  · split
    · next hplain =>
      obtain ⟨hsome, hnone⟩ := (Bool.and_eq_true _ _).mp hplain
      rw [Bool.or_eq_true, decide_eq_true_eq, Bool.not_eq_true', Bool.eq_false_iff]
      by_cases hstar : e.name = some "*"
      · exact .inl hstar
      · exact .inr fun hcontains => h.unstarred (Option.isSome_iff_ne_none.mp hsome) hstar
          (Option.isNone_iff_eq_none.mp hnone) (List.contains_iff_mem.mp hcontains)
    · rfl

/-- Where the legacy imports are unambiguous a summary has all of them. -/
theorem Unambiguous.shown {m : Mapping} {es : List Entry} (h : Unambiguous m es) {e : Entry} (hmem : e ∈ es)
    (he : isLegacyEntry m e = true) : Shown es e where
  oneAlias hnone _ e' hmem' hmodule hnone' _ :=
    h.oneName e' hmem' e hmem (by rw [isLegacyEntry_congr hmodule (hnone'.trans hnone.symm)]; exact he) he hnone' hnone
  unstarred hsome _ halias := h.unstarred e hmem he hsome halias

theorem mem_gather {m : Mapping} {t : Tree} (h : Unambiguous m (entriesIn t)) {e : Entry} (he : isLegacyEntry m e = true) :
    e ∈ gather t ↔ e ∈ entriesIn t :=
  ⟨of_mem_gather, fun hmem => (mem_gather_of_shown (h.shown hmem he)).mpr hmem⟩

/-! ### Edits -/

theorem mem_sorted {es : List Edit} {e : Edit} : e ∈ Edit.sorted es ↔ e ∈ es := by
  rw [Edit.sorted, (Text.sortBy_perm _ _).mem_iff, List.mem_eraseDups]

section Plan

variable {m : Mapping} {required : List String} {t : Tree}

/-- What a plan asks to go. -/
theorem remove_mem_plan {module : String} {name alias_ : Option String} :
    (⟨.remove, module, name, alias_⟩ : Edit) ∈ plan m required t ↔
      ⟨module, name, alias_⟩ ∈ gather t ∧ isLegacyEntry m ⟨module, name, alias_⟩ = true := by
  unfold plan
  rw [mem_sorted, List.mem_append]
  constructor
  · rintro (h | h)
    · obtain ⟨n, -, hn⟩ := List.mem_map.mp h
      cases hn
    · obtain ⟨e, he, heq⟩ := List.mem_map.mp h
      cases heq
      exact List.mem_filter.mp he
  · exact fun h => .inr (List.mem_map.mpr ⟨_, List.mem_filter.mpr h, rfl⟩)

/-- What a plan adds. -/
theorem mem_wantedOf_plan {w : Wanted} :
    w ∈ wantedOf (plan m required t) ↔ ∃ n ∈ required, w = ⟨m.fluentType, some n⟩ := by
  unfold wantedOf plan
  simp only [List.mem_map, List.mem_filter, mem_sorted, List.mem_append, decide_eq_true_eq]
  constructor
  · rintro ⟨e, ⟨⟨n, hn, rfl⟩ | ⟨e', -, rfl⟩, hkind⟩, rfl⟩
    · exact ⟨n, hn, rfl⟩
    · cases hkind
  · rintro ⟨n, hn, rfl⟩
    exact ⟨_, ⟨.inl ⟨n, hn, rfl⟩, rfl⟩, rfl⟩

theorem mem_modules_unwantedOf {es : List Edit} {p : String × Option String} :
    p ∈ (unwantedOf es).modules ↔ ⟨.remove, p.1, none, p.2⟩ ∈ es := by
  unfold unwantedOf
  simp only [List.mem_reverse, List.mem_map, List.mem_filter, decide_eq_true_eq, Option.isNone_iff_eq_none]
  constructor
  · rintro ⟨⟨k, module, name, alias_⟩, ⟨⟨he, rfl⟩, rfl⟩, rfl⟩
    exact he
  · exact fun h => ⟨_, ⟨⟨h, rfl⟩, rfl⟩, rfl⟩

theorem mem_names_unwantedOf {es : List Edit} {p : String × String × Option String} :
    p ∈ (unwantedOf es).names ↔ ⟨.remove, p.1, some p.2.1, p.2.2⟩ ∈ es := by
  unfold unwantedOf
  simp only [List.mem_filterMap, List.mem_filter, decide_eq_true_eq, Option.map_eq_some_iff]
  constructor
  · rintro ⟨⟨k, module, name, alias_⟩, ⟨he, rfl⟩, n, rfl, rfl⟩
    exact he
  · exact fun h => ⟨_, ⟨h, rfl⟩, _, rfl, rfl⟩

/-! ### What is asked to go -/

/-- Whether an import is asked to go; a star never is. -/
def isAsked (u : Unwanted) (x : Taken) : Bool :=
  match x.source, x.name with
  | none, some n => u.modules.lookup n.name = some n.alias_
  | some m, some n => m.dots = 0 && u.names.contains (m.name.getD "", n.name, n.alias_)
  | _, none => false

/-- Whether an import of a tree is in use there; a star always is. -/
def isUsedIn (t : Tree) (x : Path × Taken) : Bool :=
  x.2.name.all fun n => isInUse (Table.ofModule t) (exportedNames t) (((Table.ofModule t).places.lookup x.1).getD 0)
    (n.alias_.getD n.name)

/-- An import stays unless it is asked to go and not in use. -/
theorem staysTaken_eq (u : Unwanted) (t : Tree) (x : Path × Taken) :
    staysTaken u (Table.ofModule t) (exportedNames t) (((Table.ofModule t).places.lookup x.1).getD 0) x.2 =
      (!isAsked u x.2 || isUsedIn t x) := by
  obtain ⟨p, source, name⟩ := x
  cases name with
  | none => cases source <;> rfl
  | some n =>
    cases source with
    | none => rfl
    | some from_ =>
      have hasked : (decide (from_.dots = 0) && u.names.contains ((⟨some from_, .star⟩ : ImportStatement).moduleName, n.name, n.alias_)) =
          isAsked u ⟨some from_, some n⟩ := by
        by_cases hdots : from_.dots = 0
        · rw [moduleName_absolute (i := ⟨some from_, .star⟩) rfl hdots]
          rfl
        · simp only [isAsked, hdots, decide_false, Bool.false_and]
      rw [← hasked]
      rfl

/-- Whether an import is a legacy one that is among some entries. -/
def isLegacyIn (m : Mapping) (es : List Entry) (x : Taken) : Bool :=
  x.entry?.any fun e => isLegacyEntry m e && es.contains e

theorem lookup_of_only {α β : Type} [BEq α] [LawfulBEq α] {ps : List (α × β)} {p : α × β} (hp : p ∈ ps)
    (honly : ∀ q ∈ ps, q.1 = p.1 → q.2 = p.2) : ps.lookup p.1 = some p.2 := by
  cases h : ps.lookup p.1 with
  | none =>
    have hne := List.lookup_eq_none_iff.mp h p hp
    rw [bne_self_eq_false] at hne
    cases hne
  | some b =>
    obtain ⟨before, after, hsplit, -⟩ := List.lookup_eq_some_iff.mp h
    exact congrArg some (honly (p.1, b) (by rw [hsplit]; exact List.mem_append_right _ (List.mem_cons_self ..)) rfl)

/-- A plan asks exactly the legacy imports of the module to go. -/
theorem isAsked_plan (h : Unambiguous m (entriesIn t)) (x : Taken) :
    isAsked (unwantedOf (plan m required t)) x = isLegacyIn m (entriesIn t) x := by
  have asked : ∀ module name alias_, (⟨.remove, module, name, alias_⟩ : Edit) ∈ plan m required t ↔
      (isLegacyEntry m ⟨module, name, alias_⟩ && (entriesIn t).contains ⟨module, name, alias_⟩) = true := by
    intro module name alias_
    rw [remove_mem_plan, Bool.and_eq_true, List.contains_iff_mem]
    constructor
    · exact fun ⟨hmem, hlegacy⟩ => ⟨hlegacy, (mem_gather h hlegacy).mp hmem⟩
    · exact fun ⟨hlegacy, hmem⟩ => ⟨(mem_gather h hlegacy).mpr hmem, hlegacy⟩
  obtain ⟨source, name⟩ := x
  rw [Bool.eq_iff_iff]
  -- whole modules are looked up by their name, of which a legacy module has one only; names are listed in full
  cases source with
  | none =>
    cases name with
    | none => exact Iff.rfl
    | some n =>
      show decide _ = true ↔ (isLegacyEntry m ⟨n.name, none, n.alias_⟩ && _) = true
      rw [decide_eq_true_eq, ← asked, ← mem_modules_unwantedOf (p := (n.name, n.alias_))]
      constructor
      · intro hlookup
        obtain ⟨before, after, hsplit, -⟩ := List.lookup_eq_some_iff.mp hlookup
        rw [hsplit]
        exact List.mem_append_right _ (List.mem_cons_self ..)
      · intro hmem
        refine lookup_of_only hmem fun q hq _ => ?_
        have hself := (asked _ _ _).mp (mem_modules_unwantedOf.mp hmem)
        have hother := (asked _ _ _).mp (mem_modules_unwantedOf.mp hq)
        rw [Bool.and_eq_true, List.contains_iff_mem] at hself hother
        exact congrArg Entry.alias_ (h.oneName _ hother.2 _ hself.2 hother.1 hself.1 rfl rfl)
  | some from_ =>
    cases name with
    | none =>
      show false = true ↔ Option.any _ (if from_.dots ≠ 0 then none else
        some (Entry.mk (from_.name.getD "") (some "*") none)) = true
      split
      · exact Iff.rfl
      · exact Iff.rfl
    | some n =>
      show (decide (from_.dots = 0) && _) = true ↔
        Option.any _ (if from_.dots ≠ 0 then none else some (Entry.mk (from_.name.getD "") (some n.name) n.alias_)) = true
      by_cases hdots : from_.dots = 0
      · rw [if_neg (not_not.mpr hdots), decide_eq_true hdots, Bool.true_and, List.contains_iff_mem, mem_names_unwantedOf]
        exact asked _ _ _
      · rw [if_pos hdots, decide_eq_false hdots]
        exact Iff.rfl

end Plan

end FluentShift.Imports
