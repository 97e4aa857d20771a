import FluentShift.Config.Reading
import FluentShift.Config.Settings
import FluentShift.Files.Disk
import FluentShift.Log
import FluentShift.Source.Lexeme
import FluentShift.Text.Upper
import FluentShift.Text.Split

/-!
# FluentShift.Config.Validation - configurations that make sense

`validate` reads every setting and collects all complaints; a configuration without complaints comes back with the values
that were meant.  What concerns several settings at once is only checked when each of them is fine by itself.
-/

namespace FluentShift.Config

/-! ### Names -/

/-- Whether a text can be a name, or is a reserved word. -/
def isIdentifier (s : String) : Bool :=
  match s.toList with
  | [] => false
  | c :: cs => Text.isNameStart c && cs.all Text.isNameContinue

/-- Whether a word is reserved. -/
def isReserved (s : String) : Bool :=
  Source.keywords.contains s || Source.constantNames.contains s

/-- Checks a name. -/
def checkIdentifier (what s : String) : Reading String :=
  if !isIdentifier s then .error (.meaning (what ++ " must be a valid Python identifier, got " ++ Text.quoted s))
  else if isReserved s then .error (.meaning (what ++ " cannot be the reserved word " ++ Text.quoted s))
  else .ok s

/-- Checks names with dots between them. -/
def checkDottedName (what s : String) : Reading String :=
  if s = "" then
    .error (.meaning (what ++ " must be a dotted name such as 'package.module', got " ++ Text.quoted s))
  else do
    let _ ← (Text.split '.' s).mapM (checkIdentifier what)
    return s

/-! ### Collecting complaints -/

/-- A value, or all that is wrong with it. -/
abbrev Checked (α : Type) := Except (List Complaint) α

/-- An objection to the value at a place. -/
def Objection.at_ (place : List String) (o : Objection) : Complaint := ⟨place, o.rule, o.message⟩

/-- What was read at a place, or the complaint about it. -/
def checkedAt {α : Type} (place : List String) (r : Reading α) : Checked α :=
  r.mapError fun o => [o.at_ place]

/-- Values that are all fine, or the complaints about all that are not. -/
def allChecked {α : Type} : List (Checked α) → Checked (List α)
  | [] => .ok []
  | c :: cs =>
    match c, allChecked cs with
    | .ok a, .ok as => .ok (a :: as)
    | .ok _, .error es => .error es
    | .error es, .ok _ => .error es
    | .error es, .error fs => .error (es ++ fs)

/-! ### The table -/

/-- Reads an entry of the migration table. -/
def readField (f : MappingField) (v : Value) : Reading Value :=
  match f with
  | .legacyType | .fluentType => do return .text (← checkDottedName f.key (← readText v))
  | .messageIndex | .deltaIndex => do return .int (← readBetween 2 3 v)
  | _ => do return .text (← checkIdentifier f.key (← readText v))

/-- Checks a table whose entries are fine by themselves. -/
def checkTable (g : GivenMapping) : Reading Unit :=
  let m := g.toMapping
  let index (f : MappingField) : String := toString (((g.value f).int?).getD 0)
  if m.messageIndex = m.deltaIndex then
    .error (.meaning ("four_arg_message_index and four_arg_delta_index must be 2 and 3 in some order, got " ++
      index .messageIndex ++ " and " ++ index .deltaIndex))
  else if m.legacyType = m.fluentType && m.legacyMethod = m.entryPoint then
    .error (.meaning "The fluent entry point cannot be the legacy function itself")
  else .ok ()

/-- Reads the entries of a table. -/
def validateFields (g : GivenMapping) : Checked GivenMapping := do
  let read (f : MappingField) : Checked (MappingField × Value) :=
    (checkedAt [tableKey, f.key] (readField f (g.value f))).map fun v => (f, v)
  let values ← allChecked (MappingField.all.map read)
  return ⟨fun f => (values.lookup f).getD (g.value f)⟩

/-- Reads the migration table. -/
def validateTable : TableSetting → Checked TableSetting
  | .other _ =>
    .error [⟨[tableKey], "model_type", "Input should be a valid dictionary or instance of ValidatedAssertionTargets"⟩]
  | .table g => do
    let read ← validateFields g
    checkedAt [tableKey] (checkTable read)
    return .table read

/-! ### The settings -/

/-- Reads a list of texts, each with its place. -/
def readTexts (place : String) : Value → Checked (List String)
  | .list vs => allChecked (vs.zipIdx.map fun v => checkedAt [place, toString v.2] (readText v.1))
  | _ => .error [⟨[place], "list_type", "Input should be a valid list"⟩]

/-- Checks file patterns, counted from a number on. -/
def checkPatternsFrom : Nat → List String → Reading Unit
  | _, [] => .ok ()
  | i, p :: ps =>
    if Text.isBlankText p then
      .error (.meaning ("File pattern at index " ++ toString i ++ " cannot be empty or whitespace-only."))
    else checkPatternsFrom (i + 1) ps

/-- Checks file patterns. -/
def checkPatterns (ps : List String) : Reading Unit :=
  if ps.isEmpty then
    .error (.meaning "At least one file pattern must be specified. Use glob patterns like '*.py' or 'test_*.py'.")
  else checkPatternsFrom 0 ps

/-- The names of the log levels. -/
def logLevels : List String := Level.all.map Level.label

/-- Checks a log level; capitals do not matter. -/
def checkLogLevel (s : String) : Reading String :=
  let level := Text.upper s
  if logLevels.contains level then .ok level
  else .error (.meaning ("log_level must be one of: " ++ String.intercalate ", " logLevels ++ ", got '" ++ s ++ "'."))

/-- Checks a directory that need not be there yet. -/
def checkDirectory (d : Files.Disk) (what s : String) : Reading String :=
  let path := (Files.FilePath.ofString s).text
  if d.has path && !d.hasDirectory path then .error (.meaning (what ++ " must be a directory, got: " ++ s))
  else .ok s

/-- Nothing, or a whole number. -/
def ofInt? : Option Int → Value
  | none => .null
  | some n => .int n

/-- Reads a setting. -/
def readSetting (d : Files.Disk) (s : Setting) (v : Value) : Checked Value :=
  match s with
  | .extraFloats | .extraStrings => do
    let names ← readTexts s.key v
    return .ofTexts (← checkedAt [s.key] (names.mapM (checkDottedName s.key)))
  | .filePatterns => do
    let patterns ← readTexts s.key v
    checkedAt [s.key] (checkPatterns patterns)
    return .ofTexts patterns
  | .targetRoot | .backupRoot => checkedAt [s.key] do
    match ← readOptional readText v with
    | none => return .null
    | some root => return .text (← checkDirectory d s.key root)
  | .targetSuffix => (checkedAt [s.key] (readText v)).map .text
  | .lineLength => (checkedAt [s.key] (readOptional (readBetween 60 200) v)).map ofInt?
  | .concurrency => (checkedAt [s.key] (readBetween 1 50 v)).map .int
  | .retries => (checkedAt [s.key] (readBetween 0 10 v)).map .int
  | .sizeLimit => (checkedAt [s.key] (readBetween 1 100 v)).map .int
  | .logLevel => checkedAt [s.key] do return .text (← checkLogLevel (← readText v))
  | .recurse | .dryRun | .keepBackups | .format | .continueOnError => (checkedAt [s.key] (readBool v)).map .bool

/-- Checks settings that are fine by themselves: copies have a place only when they are kept. -/
def checkTogether (c : Config) : Reading Unit :=
  if c.isOn .backupRoot && !c.isOn .keepBackups then
    .error (.meaning ("Configuration conflicts detected: backup_root: backup_root specified but backup_originals is " ++
      "disabled - Enable backup_originals or remove backup_root"))
  else .ok ()

/-- Reads the settings beside the table. -/
def validateSettings (d : Files.Disk) (value : Setting → Value) : Checked (Setting → Value) := do
  let values ← allChecked (Setting.all.map fun s => (readSetting d s (value s)).map fun v => (s, v))
  return fun s => (values.lookup s).getD (value s)

/-- Reads a whole configuration: the values that were meant, or all complaints. -/
def check (d : Files.Disk) (c : Config) : Checked Config :=
  -- both are read to the end, so that all complaints are told at once
  match validateTable c.table, validateSettings d c.value with
  | .ok t, .ok v => do
    checkedAt [] (checkTogether ⟨t, v⟩)
    return ⟨t, v⟩
  | .ok _, .error es => .error es
  | .error es, .ok _ => .error es
  | .error es, .error fs => .error (es ++ fs)

/-- The failure for complaints; it names the first place that has one. -/
def refusal (complaints : List Complaint) : Failure :=
  let key := (complaints.head?.map Complaint.place).getD []
  .configuration "Invalid migration configuration" (if key.isEmpty then none else some (String.intercalate "." key))
    complaints

/-- The settings that name directories, in the order they are checked. -/
def roots : List Setting := [.targetRoot, .backupRoot]

/-- Why the system does not even look for the directory that a value names, if it does not. -/
def lookFault? (d : Files.Disk) (v : Value) : Option Failure :=
  match readOptional readText v with
  | .ok (some root) =>
    match d.find (Files.FilePath.ofString root).text with
    | .ok _ => none
    | .error f => some f
  | _ => none

/-- The values that were meant, or why the configuration makes no sense.  A directory that the system does not look for
ends everything: that is no complaint. -/
def validate (d : Files.Disk) (c : Config) : Except Failure Config :=
  match roots.findSome? fun s => lookFault? d (c.value s) with
  | some f => .error f
  | none => (check d c).mapError refusal

/-! ### Loading -/

/-- A configuration from the entries of a mapping; keys that name nothing are passed over. -/
def ofEntries (entries : List (Value × Value)) : Config :=
  let given := Value.mapping entries
  let table := match given.get? tableKey with
    | none => .table .standard
    | some (.mapping es) => .table (GivenMapping.standard.replace es)
    | some v => .other v
  ⟨table, fun s => (given.get? s.key).getD (Setting.standard s)⟩

/-- Loads a configuration that makes sense; its values stay as they were given. -/
def load (d : Files.Disk) (entries : List (Value × Value)) : Except Failure Config :=
  match (Value.mapping entries).get? tableKey with
  | none | some .null | some (.mapping _) => do
    let c := ofEntries entries
    let _ ← c.validate d
    return c
  | some _ => .error (.configuration "targets must be a mapping" (some tableKey) [])

/-! ### Second thoughts -/

/-- Whether more than one file may be worked on at once; only a number says so. -/
def isConcurrent (c : Config) : Except Failure Bool :=
  match c.value .concurrency with
  | .int n => .ok (1 < n)
  | .bool _ => .ok false
  | .real d p => .ok (Value.powerOfTen p < d)
  | _ => .error (.mishap .wrongType "the number of files is no number")

/-- Settings that make sense but may not be what is wanted. -/
def doubts (c : Config) : Except Failure (List String) := do
  let ignored := if c.isOn .dryRun && c.isOn .targetRoot then ["dry_run ignores target_root"] else []
  let slow ← if c.isOn .format then c.isConcurrent else pure false
  return ignored ++
    (if slow then ["formatting runs black and isort once per file and may slow concurrent runs"] else [])

/-- The warnings about a configuration that makes sense. -/
def warnings (d : Files.Disk) (c : Config) : Except Failure (List String) := do
  let _ ← c.validate d
  let issues ← c.doubts
  return if issues.isEmpty then [] else ["Configuration issues: " ++ String.intercalate ", " issues]

end FluentShift.Config
