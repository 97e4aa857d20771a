import FluentShift.Proofs.Accepted

/-!
# FluentShift.Proofs.Config.Loading - loaded values and validated values

Loading validates a configuration and keeps its values as they were given.  Validation gives the values that were meant.
The two are the same exactly where a value is given as what it means: a number or a switch as a number, a text as text, a
log level in capitals (`Config.load_same_iff`).
-/

namespace FluentShift

/-! ### Values given as what they mean -/

namespace Value

/-- Whether a value is a number; true and false count as one and zero. -/
def isNumber (v : Value) : Bool := v.decimal?.isSome

/-- Whether a value is a text. -/
def isText : Value → Bool
  | .text _ => true
  | _ => false

/-- Whether a value is nothing. -/
def isNull : Value → Bool
  | .null => true
  | _ => false

/-- Whether a value is a list of texts. -/
def areTexts : Value → Bool
  | .list vs => vs.all isText
  | _ => false

end Value

/-- Whether a value for a setting is given as what it means. -/
def Setting.isPlain (v : Value) : Setting → Bool
  | .extraFloats | .extraStrings | .filePatterns => v.areTexts
  | .targetRoot | .backupRoot => v.isNull || v.isText
  | .targetSuffix => v.isText
  | .lineLength => v.isNull || v.isNumber
  | .recurse | .dryRun | .keepBackups | .format | .continueOnError | .concurrency | .retries | .sizeLimit => v.isNumber
  | .logLevel => v.text?.any fun s => Text.upper s = s

/-- Whether a value for an entry of the table is given as what it means. -/
def MappingField.isPlain (v : Value) : MappingField → Bool
  | .messageIndex | .deltaIndex => v.isNumber
  | _ => v.isText

namespace Config

/-! ### What a reading makes of a value -/

section Readings

variable {v : Value}

theorem same_text_of_read {s : String} (h : readText v = .ok s) : v.same (.text s) = v.isText := by
  unfold readText at h
  split at h
  · cases h
    exact decide_eq_true rfl
  · rfl
  · cases h

/-- A whole number that a decimal number is, is the same number. -/
theorem sameNumber_of_wholeOf {digits n : Int} {places : Nat} (h : wholeOf? digits places = some n) :
    (Value.real digits places).sameNumber (.int n) = true := by
  unfold wholeOf? at h
  split at h
  · rename_i hwhole
    cases h
    refine decide_eq_true ?_
    show digits * Value.powerOfTen 0 = digits / Value.powerOfTen places * Value.powerOfTen places
    rw [Int.ediv_mul_cancel (Int.dvd_of_emod_eq_zero hwhole)]
    exact Int.mul_one _
  · cases h

theorem same_int_of_read {n : Int} (h : readInt v = .ok n) : v.same (.int n) = v.isNumber := by
  unfold readInt at h
  split at h
  · cases h
    exact decide_eq_true rfl
  · cases h
    exact decide_eq_true rfl
  · split at h
    · rename_i hwhole
      cases h
      exact sameNumber_of_wholeOf hwhole
    · cases h
  · cases h
  · rfl
  · rfl
  · cases h

theorem readSwitchNumber_ok {n : Int} {b : Bool} (h : readSwitchNumber n = .ok b) : n = if b then 1 else 0 := by
  unfold readSwitchNumber at h
  split at h
  · cases h
    assumption
  · split at h
    · cases h
      assumption
    · cases h

theorem same_bool_of_read {b : Bool} (h : readBool v = .ok b) : v.same (.bool b) = v.isNumber := by
  unfold readBool at h
  split at h
  · cases h
    exact decide_eq_true rfl
  · rw [readSwitchNumber_ok h]
    exact decide_eq_true rfl
  · split at h
    · rename_i n hwhole
      have hn := sameNumber_of_wholeOf hwhole
      rw [readSwitchNumber_ok h] at hn
      exact hn
    · cases h
  · rfl
  · rfl
  · cases h

/-- Nothing is the same as nothing; what is read from another value is as that value. -/
theorem same_optional_of_read {α : Type} {read : Value → Reading α} (write : α → Value) (plain : Value → Bool)
    (hread : ∀ v x, read v = .ok x → v.same (write x) = plain v) {o : Option α} (h : readOptional read v = .ok o) :
    v.same (o.elim .null write) = (v.isNull || plain v) := by
  unfold readOptional at h
  split at h
  · cases h
    rfl
  · rename_i hnull
    have hv : v.isNull = false := by cases v <;> first | rfl | exact absurd rfl hnull
    obtain ⟨x, hx, rfl⟩ := Except.map_eq_ok.mp h
    rw [hv, Bool.false_or]
    exact hread _ _ hx

theorem same_texts_of_read {place : String} {ss : List String} (h : readTexts place v = .ok ss) :
    v.same (.ofTexts ss) = v.areTexts := by
  unfold readTexts at h
  split at h
  · rename_i vs
    show Value.sameAll vs (ss.map Value.text) = vs.all Value.isText
    have hall := allChecked_ok h
    clear h
    generalize 0 = n at hall
    induction vs generalizing n ss with
    | nil =>
      obtain rfl := List.map_eq_nil_iff.mp hall.symm
      rfl
    | cons v vs ih =>
      obtain ⟨s, ss, rfl, hs, hss⟩ := List.map_eq_cons_iff.mp hall.symm
      show (v.same (.text s) && Value.sameAll vs (ss.map Value.text)) = (v.isText && vs.all Value.isText)
      rw [same_text_of_read (checkedAt_ok hs.symm), ih (n + 1) hss.symm]
  · cases h

theorem checkLogLevel_ok {s t : String} (h : checkLogLevel s = .ok t) : t = Text.upper s := by
  dsimp only [checkLogLevel] at h
  split at h
  · cases h
    rfl
  · cases h

theorem checkDirectory_ok {d : Files.Disk} {what s t : String} (h : checkDirectory d what s = .ok t) : t = s := by
  dsimp only [checkDirectory] at h
  split at h <;> cases h
  rfl

theorem checkDottedNames_ok {what : String} {ss ts : List String} (h : ss.mapM (checkDottedName what) = .ok ts) :
    ts = ss := by
  induction ss generalizing ts with
  | nil =>
    cases h
    rfl
  | cons s ss ih =>
    rw [List.mapM_cons] at h
    obtain ⟨t, ht, h⟩ := Except.bind_eq_ok.mp h
    obtain ⟨ts, hts, h⟩ := Except.bind_eq_ok.mp h
    cases h
    rw [checkDottedName_ok ht, ih hts]

end Readings

/-! ### What validation makes of settings and entries -/

/-- What is read for a setting is the same as what was given exactly when that is given as what it means. -/
theorem same_of_readSetting {d : Files.Disk} {s : Setting} {v v' : Value} (h : readSetting d s v = .ok v') :
    v.same v' = s.isPlain v := by
  have hnumber : ∀ {r : Reading Int} {place : List String}, (checkedAt place r).map Value.int = .ok v' →
      (∀ n, r = .ok n → v.same (.int n) = v.isNumber) → v.same v' = v.isNumber := by
    intro r place h hr
    obtain ⟨n, hn, rfl⟩ := Except.map_eq_ok.mp h
    exact hr n (checkedAt_ok hn)
  cases s with
  -- numbers and switches
  | concurrency | retries | sizeLimit => exact hnumber h fun n hn => same_int_of_read (readBetween_ok hn).1
  | recurse | dryRun | keepBackups | format | continueOnError =>
    obtain ⟨b, hb, rfl⟩ := Except.map_eq_ok.mp h
    exact same_bool_of_read (checkedAt_ok hb)
  -- lists, of which the names are checked once more
  | extraFloats | extraStrings =>
    obtain ⟨names, hnames, h⟩ := Except.bind_eq_ok.mp h
    obtain ⟨names', hnames', h⟩ := Except.bind_eq_ok.mp h
    cases h
    rw [checkDottedNames_ok (checkedAt_ok hnames')]
    exact same_texts_of_read hnames
  | filePatterns =>
    obtain ⟨patterns, hpatterns, h⟩ := Except.bind_eq_ok.mp h
    obtain ⟨_, -, h⟩ := Except.bind_eq_ok.mp h
    cases h
    exact same_texts_of_read hpatterns
  | targetSuffix =>
    obtain ⟨s, hs, rfl⟩ := Except.map_eq_ok.mp h
    exact same_text_of_read (checkedAt_ok hs)
  -- what may be missing
  | lineLength =>
    obtain ⟨o, ho, rfl⟩ := Except.map_eq_ok.mp h
    have hsame := same_optional_of_read Value.int Value.isNumber
      (fun v n hn => same_int_of_read (readBetween_ok hn).1) (checkedAt_ok ho)
    cases o <;> exact hsame
  | targetRoot | backupRoot =>
    obtain ⟨o, ho, h⟩ := Except.bind_eq_ok.mp (checkedAt_ok h)
    have hsame := same_optional_of_read Value.text Value.isText
      (fun v s hs => same_text_of_read hs) ho
    cases o with
    | none =>
      cases h
      exact hsame
    | some root =>
      obtain ⟨root', hroot, h⟩ := Except.bind_eq_ok.mp h
      cases h
      rw [checkDirectory_ok hroot]
      exact hsame
  | logLevel =>
    obtain ⟨s, hs, h⟩ := Except.bind_eq_ok.mp (checkedAt_ok h)
    obtain ⟨level, hlevel, h⟩ := Except.bind_eq_ok.mp h
    cases h
    rw [checkLogLevel_ok hlevel]
    unfold readText at hs
    split at hs
    · cases hs
      exact decide_eq_decide.mpr eq_comm
    · rfl
    · cases hs

/-- What is read for an entry of the table is the same as what was given exactly when that is given as what it means. -/
theorem same_of_readField {f : MappingField} {v v' : Value} (h : readField f v = .ok v') : v.same v' = f.isPlain v := by
  cases f with
  | messageIndex | deltaIndex =>
    obtain ⟨n, hn, h⟩ := Except.bind_eq_ok.mp h
    cases h
    exact same_int_of_read (readBetween_ok hn).1
  | legacyType | fluentType =>
    obtain ⟨s, hs, h⟩ := Except.bind_eq_ok.mp h
    obtain ⟨s', hs', h⟩ := Except.bind_eq_ok.mp h
    cases h
    rw [checkDottedName_ok hs']
    exact same_text_of_read hs
  | _ =>
    obtain ⟨s, hs, h⟩ := Except.bind_eq_ok.mp h
    obtain ⟨s', hs', h⟩ := Except.bind_eq_ok.mp h
    cases h
    rw [(checkIdentifier_ok hs').1]
    exact same_text_of_read hs

theorem validateSettings_ok {d : Files.Disk} {value value' : Setting → Value} (h : validateSettings d value = .ok value')
    (s : Setting) : readSetting d s (value s) = .ok (value' s) := by
  obtain ⟨values, hvalues, h⟩ := Except.bind_eq_ok.mp h
  cases h
  obtain ⟨v, hlookup, hv⟩ := lookup_allChecked hvalues (show s ∈ Setting.all by cases s <;> decide)
  show _ = Except.ok ((values.lookup s).getD (value s))
  rw [hlookup]
  exact hv

/-- Validation succeeds where the system looks for the directories that are named, and there is nothing to complain about. -/
theorem validate_eq_ok {d : Files.Disk} {c v : Config} :
    c.validate d = .ok v ↔ (∀ s ∈ roots, lookFault? d (c.value s) = none) ∧ check d c = .ok v := by
  unfold validate
  split
  · rename_i f hf
    obtain ⟨s, hs, hf⟩ := List.exists_of_findSome?_eq_some hf
    refine ⟨nofun, fun h => ?_⟩
    rw [h.1 s hs] at hf
    cases hf
  · rename_i hnone
    rw [List.findSome?_eq_none_iff] at hnone
    cases check d c with
    | ok v' => exact ⟨fun h => ⟨hnone, congrArg Except.ok (Except.ok.inj h)⟩, fun h => congrArg Except.ok (Except.ok.inj h.2)⟩
    | error es => exact ⟨nofun, fun h => nomatch h.2⟩

/-- What validation makes of a configuration without complaints. -/
theorem validate_ok {d : Files.Disk} {c v : Config} (h : c.validate d = .ok v) :
    (∀ s, readSetting d s (c.value s) = .ok (v.value s)) ∧
      ∃ g g', c.table = .table g ∧ v.table = .table g' ∧ ∀ f, readField f (g.value f) = .ok (g'.value f) := by
  have hcheck := (validate_eq_ok.mp h).2
  unfold check at hcheck
  split at hcheck
  · rename_i t value ht hvalue
    obtain ⟨_, -, hcheck⟩ := Except.bind_eq_ok.mp hcheck
    cases hcheck
    refine ⟨validateSettings_ok hvalue, ?_⟩
    cases htable : c.table with
    | other v =>
      rw [htable] at ht
      cases ht
    | table g =>
      rw [htable] at ht
      obtain ⟨g', hg', ht⟩ := Except.bind_eq_ok.mp ht
      obtain ⟨_, -, ht⟩ := Except.bind_eq_ok.mp ht
      cases ht
      exact ⟨g, g', rfl, rfl, validateFields_ok hg'⟩
  all_goals cases hcheck

/-! ### Loading -/

/-- Loading gives the values as they were given, of a configuration that validation accepts. -/
theorem load_ok {d : Files.Disk} {entries : List (Value × Value)} {c : Config} (h : load d entries = .ok c) :
    c = ofEntries entries ∧ ∃ v, c.validate d = .ok v := by
  have hvalid : (do let _ ← (ofEntries entries).validate d; return ofEntries entries : Except Failure Config) = .ok c := by
    unfold load at h
    split at h <;> first | exact h | cases h
  obtain ⟨v, hv, hvalid⟩ := Except.bind_eq_ok.mp hvalid
  cases hvalid
  exact ⟨rfl, v, hv⟩

/-- A loaded configuration has the values that validation read exactly where they were given as what they mean. -/
theorem load_same_iff {d : Files.Disk} {entries : List (Value × Value)} {c : Config} (h : load d entries = .ok c) :
    c = ofEntries entries ∧ ∃ v, c.validate d = .ok v ∧
      (∀ s, (c.value s).same (v.value s) = true ↔ s.isPlain (c.value s) = true) ∧
      ∃ g g', c.table = .table g ∧ v.table = .table g' ∧
        ∀ f, (g.value f).same (g'.value f) = true ↔ f.isPlain (g.value f) = true := by
  obtain ⟨hc, v, hv⟩ := load_ok h
  obtain ⟨hsettings, g, g', hg, hg', hfields⟩ := validate_ok hv
  refine ⟨hc, v, hv, fun s => ?_, g, g', hg, hg', fun f => ?_⟩
  · rw [same_of_readSetting (hsettings s)]
  · rw [same_of_readField (hfields f)]

/-- A number that is given as a text. -/
def retriesText : List (Value × Value) := [(.text "io_retries", .text "4")]

/-- A text that stands for a number is accepted, and stays a text. -/
theorem load_same_retriesText :
    load .empty retriesText = .ok (ofEntries retriesText) ∧
      ∃ v, (ofEntries retriesText).validate .empty = .ok v ∧
        ((ofEntries retriesText).value .retries).same (v.value .retries) = false ∧
        ((ofEntries retriesText).value .logLevel).same (v.value .logLevel) = true := by
  have h : load .empty retriesText = .ok (ofEntries retriesText) := rfl
  obtain ⟨-, v, hv, hsame, -⟩ := load_same_iff h
  refine ⟨h, v, hv, ?_, (hsame .logLevel).mpr rfl⟩
  exact Bool.eq_false_iff.mpr fun hretries => Bool.false_ne_true ((hsame .retries).mp hretries)

/-- A switch that is turned off by a word is on in the loaded configuration. -/
theorem load_switchWord :
    ∃ c v, load .empty [(.text "dry_run", .text "false")] = .ok c ∧
      (ofEntries [(.text "dry_run", .text "false")]).validate .empty = .ok v ∧
      (c.value .dryRun).same (v.value .dryRun) = false ∧ c.isOn .dryRun = true ∧ v.isOn .dryRun = false :=
  ⟨_, _, rfl, rfl, rfl, rfl, rfl⟩

end Config

end FluentShift
