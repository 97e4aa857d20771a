import FluentShift.Config.Validation
import FluentShift.Proofs.Runs
import FluentShift.Proofs.Source.Writing

/-!
# FluentShift.Proofs.Accepted - what validation says about a mapping

A mapping is `Accepted` when the validation of its table finds nothing to complain about.  Then its names are names
(`Accepted.isName`), the two indices are 2 and 3 in some order (`Accepted.indices`), and the fluent entry point is not
the legacy function (`Accepted.distinct`).
-/

namespace FluentShift

open FluentShift.Config FluentShift.Source

/-- The mapping passes the validation of its table. -/
def Mapping.Accepted (m : Mapping) : Prop :=
  ∃ t, validateTable (.table ⟨m.entry⟩) = .ok t

/-- The default mapping is accepted. -/
theorem Mapping.accepted_standard : Mapping.standard.Accepted := ⟨_, rfl⟩

/-- The entries that hold one name each. -/
def MappingField.IsWord (f : MappingField) : Prop :=
  f ≠ .legacyType ∧ f ≠ .fluentType ∧ f ≠ .messageIndex ∧ f ≠ .deltaIndex

/-! ### The steps of a validation -/

namespace Config

theorem allChecked_ok {α : Type} {cs : List (Checked α)} {as : List α} (h : allChecked cs = .ok as) :
    cs = as.map .ok := by
  induction cs generalizing as with
  | nil => cases h; rfl
  | cons c cs ih =>
    unfold allChecked at h
    split at h
    · rename_i a bs hbs
      cases h
      rw [List.map_cons, ← ih hbs]
    all_goals cases h

theorem checkedAt_ok {α : Type} {place : List String} {r : Reading α} {a : α} (h : checkedAt place r = .ok a) :
    r = .ok a := by
  cases r with
  | error o => cases h
  | ok b => cases h; rfl

theorem checkIdentifier_ok {what s t : String} (h : checkIdentifier what s = .ok t) : t = s ∧ IsName s := by
  unfold checkIdentifier at h
  split at h
  · cases h
  · rename_i hid
    split at h
    · cases h
    · rename_i hres
      cases h
      refine ⟨rfl, ?_⟩
      have hres : keywords.contains s = false ∧ constantNames.contains s = false := by
        simpa [isReserved] using hres
      refine ⟨?_, hres.1, hres.2⟩
      have hid : isIdentifier s = true := by simpa using hid
      unfold isIdentifier at hid
      split at hid
      · cases hid
      · rename_i c cs hs
        have hc := (Bool.and_eq_true _ _).mp hid
        exact ⟨c, cs, hs, hc.1, hc.2⟩

theorem checkDottedName_ok {what s t : String} (h : checkDottedName what s = .ok t) : t = s := by
  unfold checkDottedName at h
  split at h
  · cases h
  · obtain ⟨_, -, h⟩ := Except.bind_eq_ok.mp h
    cases h
    rfl

theorem readBetween_ok {low high n : Int} {v : Value} (h : readBetween low high v = .ok n) :
    readInt v = .ok n ∧ low ≤ n ∧ n ≤ high := by
  obtain ⟨k, hk, h⟩ := Except.bind_eq_ok.mp h
  split at h
  · cases h
  · split at h
    · cases h
    · cases h
      exact ⟨hk, by omega, by omega⟩

/-- What was read under a key is found under that key. -/
theorem lookup_allChecked {κ α : Type} [BEq κ] [LawfulBEq κ] {read : κ → Checked α} {ks : List κ}
    {values : List (κ × α)} (h : allChecked (ks.map fun k => (read k).map fun v => (k, v)) = .ok values) {k : κ}
    (hk : k ∈ ks) : ∃ v, values.lookup k = some v ∧ read k = .ok v := by
  have hall := allChecked_ok h
  clear h
  induction ks generalizing values with
  | nil => cases hk
  | cons k' ks ih =>
    rw [List.map_cons] at hall
    obtain ⟨p, values, rfl, hp, hrest⟩ := List.map_eq_cons_iff.mp hall.symm
    obtain ⟨v, hv, rfl⟩ := Except.map_eq_ok.mp hp.symm
    rw [List.lookup_cons]
    cases hkk : k == k' with
    | true =>
      rw [eq_of_beq hkk]
      exact ⟨v, rfl, hv⟩
    | false =>
      have hne : k ≠ k' := by
        rintro rfl
        rw [beq_self_eq_true] at hkk
        cases hkk
      exact ih ((List.mem_cons.mp hk).resolve_left hne) hrest.symm

/-- What is read from an entry of a table that passes validation. -/
theorem validateFields_ok {g read : GivenMapping} (h : validateFields g = .ok read) (f : MappingField) :
    readField f (g.value f) = .ok (read.value f) := by
  obtain ⟨values, hvalues, h⟩ := Except.bind_eq_ok.mp h
  cases h
  obtain ⟨v, hlookup, hv⟩ := lookup_allChecked hvalues (show f ∈ MappingField.all by cases f <;> decide)
  show _ = Except.ok ((values.lookup f).getD (g.value f))
  rw [hlookup]
  exact checkedAt_ok hv

end Config

/-! ### Accepted mappings -/

namespace Mapping

variable {m : Mapping}

/-- What validation reads from the table of an accepted mapping. -/
theorem Accepted.read (h : m.Accepted) :
    ∃ read : GivenMapping, (∀ f, readField f (m.entry f) = .ok (read.value f)) ∧ checkTable read = .ok () := by
  obtain ⟨t, h⟩ := h
  obtain ⟨read, hread, h⟩ := Except.bind_eq_ok.mp h
  obtain ⟨u, hu, -⟩ := Except.bind_eq_ok.mp h
  exact ⟨read, validateFields_ok hread, checkedAt_ok hu⟩

/-- A type, read from its text. -/
theorem readField_type {f : MappingField} (hf : f = .legacyType ∨ f = .fluentType) {s : String} {v : Value}
    (h : readField f (.text s) = .ok v) : v = .text s := by
  have h : (do return Value.text (← checkDottedName f.key (← readText (.text s)))) = Except.ok v := by
    rcases hf with rfl | rfl <;> exact h
  obtain ⟨t, ht, h⟩ := Except.bind_eq_ok.mp h
  cases ht
  obtain ⟨u, hu, h⟩ := Except.bind_eq_ok.mp h
  cases h
  rw [checkDottedName_ok hu]

/-- A name, read from its text. -/
theorem readField_word {f : MappingField} (hf : f.IsWord) {s : String} {v : Value}
    (h : readField f (.text s) = .ok v) : v = .text s ∧ IsName s := by
  have h : (do return Value.text (← checkIdentifier f.key (← readText (.text s)))) = Except.ok v := by
    cases f with
    | legacyType => exact absurd rfl hf.1
    | fluentType => exact absurd rfl hf.2.1
    | messageIndex => exact absurd rfl hf.2.2.1
    | deltaIndex => exact absurd rfl hf.2.2.2
    | _ => exact h
  obtain ⟨t, ht, h⟩ := Except.bind_eq_ok.mp h
  cases ht
  obtain ⟨u, hu, h⟩ := Except.bind_eq_ok.mp h
  cases h
  obtain ⟨rfl, hname⟩ := checkIdentifier_ok hu
  exact ⟨rfl, hname⟩

/-- An index, read from its number. -/
theorem readField_index {f : MappingField} (hf : f = .messageIndex ∨ f = .deltaIndex) {i : ArgumentIndex} {v : Value}
    (h : readField f i.toValue = .ok v) : ∃ n : Int, i = .at_ n ∧ v = .int n ∧ (n = 2 ∨ n = 3) := by
  have h : (do return Value.int (← readBetween 2 3 i.toValue)) = Except.ok v := by
    rcases hf with rfl | rfl <;> exact h
  obtain ⟨n, hn, h⟩ := Except.bind_eq_ok.mp h
  cases h
  obtain ⟨hint, hlow, hhigh⟩ := readBetween_ok hn
  cases i with
  | unusable => cases hint
  | at_ k => cases hint; exact ⟨n, rfl, rfl, by omega⟩

/-- All names that a chain is made of can be bound. -/
theorem Accepted.isName (h : m.Accepted) :
    IsName m.entryPoint ∧ IsName m.equalityMethod ∧ IsName m.labelledMethod ∧ IsName m.deferredMethod ∧
      IsName m.toleranceMethod ∧ IsName m.toleranceWrapper := by
  obtain ⟨read, hread, -⟩ := h.read
  refine ⟨(readField_word ?_ (hread .entryPoint)).2, (readField_word ?_ (hread .equalityMethod)).2,
    (readField_word ?_ (hread .labelledMethod)).2, (readField_word ?_ (hread .deferredMethod)).2,
    (readField_word ?_ (hread .toleranceMethod)).2, (readField_word ?_ (hread .toleranceWrapper)).2⟩
  all_goals simp [MappingField.IsWord]

/-- The message and the tolerance are the last two of four arguments, in some order. -/
theorem Accepted.indices (h : m.Accepted) :
    m.messageIndex = .at_ 2 ∧ m.deltaIndex = .at_ 3 ∨ m.messageIndex = .at_ 3 ∧ m.deltaIndex = .at_ 2 := by
  obtain ⟨read, hread, htable⟩ := h.read
  obtain ⟨i, hi, hvi, hi'⟩ := readField_index (.inl rfl) (hread .messageIndex)
  obtain ⟨j, hj, hvj, hj'⟩ := readField_index (.inr rfl) (hread .deltaIndex)
  have hne : i ≠ j := by
    rintro rfl
    have heq : read.toMapping.messageIndex = read.toMapping.deltaIndex := by
      show read.indexOf .messageIndex = read.indexOf .deltaIndex
      simp only [GivenMapping.indexOf, hvi, hvj]
    rw [checkTable, if_pos heq] at htable
    cases htable
  rcases hi' with rfl | rfl <;> rcases hj' with rfl | rfl
  · exact absurd rfl hne
  · exact .inl ⟨hi, hj⟩
  · exact .inr ⟨hi, hj⟩
  · exact absurd rfl hne

/-- The fluent entry point is not the legacy function. -/
theorem Accepted.distinct (h : m.Accepted) : ¬(m.legacyType = m.fluentType ∧ m.legacyMethod = m.entryPoint) := by
  obtain ⟨read, hread, htable⟩ := h.read
  rintro ⟨htype, hmethod⟩
  have hlegacyType := readField_type (.inl rfl) (hread .legacyType)
  have hfluentType := readField_type (.inr rfl) (hread .fluentType)
  have hlegacyMethod := (readField_word (by simp [MappingField.IsWord]) (hread .legacyMethod)).1
  have hentryPoint := (readField_word (by simp [MappingField.IsWord]) (hread .entryPoint)).1
  have hboth : (read.toMapping.legacyType = read.toMapping.fluentType &&
      read.toMapping.legacyMethod = read.toMapping.entryPoint) = true := by
    show (decide (read.textOf .legacyType = read.textOf .fluentType) &&
      decide (read.textOf .legacyMethod = read.textOf .entryPoint)) = true
    simp [GivenMapping.textOf, hlegacyType, hfluentType, hlegacyMethod, hentryPoint, Value.text?, htype, hmethod]
  simp only [checkTable] at htable
  split at htable
  · cases htable
  · cases htable

end Mapping

end FluentShift
