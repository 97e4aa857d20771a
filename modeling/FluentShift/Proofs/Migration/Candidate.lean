import FluentShift.Migration.Candidate
import FluentShift.Proofs.Accepted
import FluentShift.Proofs.Imports.Plan
import FluentShift.Rewrite.Plan

/-!
# FluentShift.Proofs.Migration.Candidate - which imports make a text a candidate

A text that mentions the legacy package is a candidate exactly when one of its imports, at any depth, reaches the legacy
function (`isCandidate_iff`).  Every legacy import does, so no text is left out of which a migration would take an import
away (`isCandidate_of_remove`).  A call can mean the legacy function without one, though: any import of a module of its
package makes the package known (`leftOut_siblingText`).
-/

namespace FluentShift.Migration

open FluentShift.Source FluentShift.Source.Tree FluentShift.Scope FluentShift.Rewrite FluentShift.Imports

variable {m : Mapping}

/-! ### Imports that reach the legacy function -/

/-- An import reaches the legacy function: it is one of the legacy type or of something below it, one of the function
from the type or of the type from its package, or takes everything from one of the two. -/
inductive Reaches (m : Mapping) : Taken → Prop where
  | type {n : ImportedName} (h : startsAt m.legacyType n.name = true) : Reaches m ⟨none, some n⟩
  | method {alias_ : Option String} : Reaches m ⟨some ⟨0, some m.legacyType⟩, some ⟨m.legacyMethod, alias_⟩⟩
  | leaf {package : String} {alias_ : Option String} (h : m.legacyParent = some package) :
      Reaches m ⟨some ⟨0, some package⟩, some ⟨m.legacyLeaf, alias_⟩⟩
  | star {module : String} (h : module = m.legacyType ∨ m.legacyParent = some module) :
      Reaches m ⟨some ⟨0, some module⟩, none⟩

/-- A statement is looked at for the imports that reach the legacy function. -/
theorem reachesLegacy_iff {i : ImportStatement} : reachesLegacy m i = true ↔ ∃ x ∈ takenBy i, Reaches m x := by
  obtain ⟨source, imported⟩ := i
  have himports : ∀ name, imports ⟨source, imported⟩ name = true ↔
      (imported = .star ∨ ∃ ns n, imported = .names ns ∧ n ∈ ns ∧ n.name = name) := by
    intro name
    cases imported <;> simp [imports]
  constructor
  · -- each way in which the code finds an import is one of the ways to reach the function
    intro h
    unfold reachesLegacy at h
    split at h
    · next hsource =>
      obtain ⟨n, hn, hstart⟩ := List.any_eq_true.mp h
      obtain rfl : source = none := hsource
      cases imported with
      | star => cases hn
      | names ns => exact ⟨_, List.mem_map_of_mem hn, .type hstart⟩
    · next module hsource =>
      obtain rfl : source = some ⟨0, some module⟩ := hsource
      simp only [Bool.or_eq_true, Bool.and_eq_true, decide_eq_true_eq, himports] at h
      rcases h with ⟨rfl, rfl | ⟨ns, n, rfl, hn, hname⟩⟩ | ⟨hparent, rfl | ⟨ns, n, rfl, hn, hname⟩⟩
      · exact ⟨_, List.mem_singleton_self _, .star (.inl rfl)⟩
      · obtain ⟨name, alias_⟩ := n
        cases hname
        exact ⟨_, List.mem_map_of_mem hn, .method⟩
      · exact ⟨_, List.mem_singleton_self _, .star (.inr hparent.symm)⟩
      · obtain ⟨name, alias_⟩ := n
        cases hname
        exact ⟨_, List.mem_map_of_mem hn, .leaf hparent.symm⟩
    · cases h
  · rintro ⟨x, hx, hreach⟩
    cases imported with
    | star =>
      cases List.mem_singleton.mp hx
      cases hreach with
      | star h => rcases h with rfl | h <;> simp [reachesLegacy, imports, *]
    | names ns =>
      obtain ⟨n, hn, heq⟩ := List.mem_map.mp hx
      cases heq
      cases hreach with
      | type hstart => exact List.any_eq_true.mpr ⟨n, hn, hstart⟩
      | method =>
        have := (himports m.legacyMethod).mpr (.inr ⟨ns, _, rfl, hn, rfl⟩)
        simp [reachesLegacy, this]
      | leaf hparent =>
        have := (himports m.legacyLeaf).mpr (.inr ⟨ns, _, rfl, hn, rfl⟩)
        simp [reachesLegacy, this, hparent]

theorem mem_importsOf {t : Tree} {i : ImportStatement} : i ∈ importsOf t ↔ i ∈ importsIn t := by
  have hnodes : ∀ n : Path × Tree, n ∈ t.nodesOf .importStmt ++ t.nodesOf .importFrom ↔
      n ∈ t.nodesWhere fun k => k = .importStmt || k = .importFrom := by
    intro n
    simp only [List.mem_append, nodesOf, nodesWhere_eq, mem_nodesFrom, Bool.or_eq_true, decide_eq_true_eq]
    constructor
    · rintro (⟨r, hr, hat, k, hk, h⟩ | ⟨r, hr, hat, k, hk, h⟩)
      · exact ⟨r, hr, hat, k, hk, .inl h⟩
      · exact ⟨r, hr, hat, k, hk, .inr h⟩
    · rintro ⟨r, hr, hat, k, hk, h | h⟩
      · exact .inl ⟨r, hr, hat, k, hk, h⟩
      · exact .inr ⟨r, hr, hat, k, hk, h⟩
  unfold importsOf importsIn importsFrom
  rw [List.map_filterMap]
  simp only [List.mem_filterMap, hnodes, Option.map_map, Function.comp_def, Option.map_id']
  exact Iff.rfl

/-- A text is a candidate exactly when it mentions the legacy package and has an import that reaches the legacy
function. -/
theorem isCandidate_iff {text : String} {t : Tree} (hread : strictModule text = .ok t) :
    isCandidate m text = .ok true ↔ mentionsLegacy m text = true ∧ ∃ x ∈ takenIn t, Reaches m x := by
  have hany : (importsOf t).any (reachesLegacy m) = true ↔ ∃ x ∈ takenIn t, Reaches m x := by
    simp only [List.any_eq_true, mem_importsOf, reachesLegacy_iff, takenIn, List.mem_flatMap]
    constructor
    · rintro ⟨i, hi, x, hx, h⟩
      exact ⟨x, ⟨i, hi, hx⟩, h⟩
    · rintro ⟨x, ⟨i, hi, hx⟩, h⟩
      exact ⟨i, hi, x, hx, h⟩
  unfold isCandidate
  split
  · next hmention =>
    rw [hread, hmention]
    show Except.ok ((importsOf t).any (reachesLegacy m)) = _ ↔ _
    rw [Except.ok.injEq, hany]
    exact (and_iff_right rfl).symm
  · next hmention => simp [hmention]

/-! ### Legacy imports -/

theorem legacyType_ne_empty (hm : m.Accepted) : m.legacyType ≠ "" := by
  intro hempty
  obtain ⟨read, hread, -⟩ := hm.read
  have h : (do return Value.text (← Config.checkDottedName (MappingField.key .legacyType)
      (← Config.readText (.text m.legacyType)))) = Except.ok (read.value .legacyType) := hread .legacyType
  obtain ⟨s, hs, h⟩ := Except.bind_eq_ok.mp h
  cases hs
  obtain ⟨u, hu, -⟩ := Except.bind_eq_ok.mp h
  rw [hempty] at hu
  cases hu

theorem legacyParent_ne_empty (m : Mapping) : m.legacyParent ≠ some "" := by
  unfold Mapping.legacyParent
  split
  · exact fun h => by cases h
  · assumption

theorem startsAt_self (name : String) : startsAt name name = true := by simp [startsAt]

/-- Every legacy import reaches the legacy function. -/
theorem reaches_of_isLegacyEntry (hm : m.Accepted) {x : Taken} {e : Entry} (he : x.entry? = some e)
    (hlegacy : isLegacyEntry m e = true) : Reaches m x := by
  have hforms : (e.module = m.legacyType ∧ (e.name = some m.legacyMethod ∨ e.name = none)) ∨
      m.legacyParent = some e.module ∧ e.name = some m.legacyLeaf := by
    simp only [isLegacyEntry, Bool.and_eq_true, List.contains_iff_mem, legacyForms] at hlegacy
    cases hparent : m.legacyParent with
    | none => simpa [hparent, and_or_left] using hlegacy.2
    | some p => simpa [hparent, and_or_left, eq_comm, or_assoc] using hlegacy.2
  obtain ⟨source, name⟩ := x
  cases source with
  | none =>
    cases name with
    | none => cases he
    | some n =>
      cases he
      rcases hforms with ⟨hmodule, -⟩ | ⟨-, hname⟩
      · exact .type (hmodule ▸ startsAt_self _)
      · cases hname
  | some s =>
    obtain ⟨dots, module⟩ := s
    by_cases hdots : dots = 0
    · subst hdots
      have hmodule : module.getD "" = m.legacyType ∨ m.legacyParent = some (module.getD "") := by
        cases name <;> cases he <;> exact hforms.imp And.left And.left
      -- a module without a name is neither the legacy type nor its package
      cases module with
      | none =>
        rcases hmodule with hmodule | hmodule
        · exact absurd hmodule.symm (legacyType_ne_empty hm)
        · exact absurd hmodule (legacyParent_ne_empty m)
      | some module =>
        cases name with
        | none => exact .star hmodule
        | some n =>
          cases he
          obtain ⟨name, alias_⟩ := n
          rcases hforms with ⟨rfl, hname | hname⟩ | ⟨hparent, hname⟩
          · cases hname
            exact .method
          · cases hname
          · cases hname
            exact .leaf hparent
    · simp [Taken.entry?, hdots] at he

/-- A text of which a migration would take an import away is a candidate. -/
theorem isCandidate_of_remove (hm : m.Accepted) {text : String} {t : Tree} (hread : strictModule text = .ok t)
    (hmention : mentionsLegacy m text = true) {required : List String} {e : Edit} (he : e ∈ plan m required t)
    (hremove : e.kind = .remove) : isCandidate m text = .ok true := by
  obtain ⟨kind, module, name, alias_⟩ := e
  cases hremove
  obtain ⟨hmem, hlegacy⟩ := remove_mem_plan.mp he
  obtain ⟨x, hx, hentry⟩ := List.mem_filterMap.mp (of_mem_gather hmem)
  exact (isCandidate_iff hread).mpr ⟨hmention, x, hx, reaches_of_isLegacyEntry hm hentry hlegacy⟩

/-! ### A module beside the legacy type -/

/-- A text that reaches the legacy function through an import of another module of its package. -/
def siblingText : String := "import junit.Other\njunit.Assertions.assertEquals(1, 2)\n"

/-- Whether a text is a candidate, whether it mentions the legacy package, and how many calls are collected in it. -/
structure Candidacy where
  candidate : Bool
  mentions : Bool
  calls : Nat
  deriving DecidableEq

/-- Reads a text and looks for legacy calls. -/
def candidacy (m : Mapping) (text : String) : Option Candidacy := do
  let f ← SourceFile.parse? text
  let _ ← (strictModule text).toOption
  let candidate ← (isCandidate m text).toOption
  return ⟨candidate, mentionsLegacy m text, (collect m (Table.ofModule f.tree) f.tree).length⟩

theorem of_candidacy {m : Mapping} {text : String} {r : Candidacy} (h : candidacy m text = some r) :
    ∃ f t, SourceFile.parse? text = some f ∧ strictModule text = .ok t ∧ isCandidate m text = .ok r.candidate ∧
      mentionsLegacy m text = r.mentions ∧ (collect m (Table.ofModule f.tree) f.tree).length = r.calls := by
  obtain ⟨f, hf, h⟩ := Option.bind_eq_some_iff.mp h
  obtain ⟨t, ht, h⟩ := Option.bind_eq_some_iff.mp h
  obtain ⟨b, hb, h⟩ := Option.bind_eq_some_iff.mp h
  cases h
  exact ⟨f, t, hf, Except.eq_ok_of_toOption ht, Except.eq_ok_of_toOption hb, rfl, rfl⟩

set_option maxRecDepth 100000 in
theorem candidacy_siblingText : candidacy .standard siblingText = some ⟨false, true, 1⟩ := by decide +kernel

/-- `siblingText` is no candidate, since no import of it reaches the legacy function; but a call is collected in it. -/
theorem leftOut_siblingText :
    ∃ f t, SourceFile.parse? siblingText = some f ∧ strictModule siblingText = .ok t ∧
      isCandidate .standard siblingText = .ok false ∧ (∀ x ∈ takenIn t, ¬Reaches .standard x) ∧
      (collect .standard (Table.ofModule f.tree) f.tree).length = 1 := by
  obtain ⟨f, t, hf, ht, hcandidate, hmentions, hcalls⟩ := of_candidacy candidacy_siblingText
  refine ⟨f, t, hf, ht, hcandidate, fun x hx hreach => ?_, hcalls⟩
  have htrue := (isCandidate_iff ht).mpr ⟨hmentions, x, hx, hreach⟩
  rw [hcandidate] at htrue
  cases htrue

end FluentShift.Migration
