import FluentShift.Failure
import FluentShift.Mapping
import FluentShift.Types.Descriptor

/-!
# FluentShift.Config.Settings - what can be configured

A `Config` holds a value for every setting, as it was given: nothing is checked or converted here.  The names of the
migration are a table of their own, `GivenMapping`; `Mapping` is what they mean.
-/

namespace FluentShift

/-! ### The table of names -/

/-- The entries of a migration table, in the order they are checked. -/
inductive MappingField where
  | legacyType
  | legacyMethod
  | fluentType
  | entryPoint
  | equalityMethod
  | labelledMethod
  | deferredMethod
  | toleranceMethod
  | toleranceWrapper
  | messageIndex
  | deltaIndex
  deriving DecidableEq, Repr, Inhabited

namespace MappingField

/-- All entries in order. -/
def all : List MappingField :=
  [legacyType, legacyMethod, fluentType, entryPoint, equalityMethod, labelledMethod, deferredMethod, toleranceMethod,
    toleranceWrapper, messageIndex, deltaIndex]

/-- The key of an entry in a configuration. -/
def key : MappingField → String
  | legacyType => "legacy_type"
  | legacyMethod => "legacy_method"
  | fluentType => "fluent_type"
  | entryPoint => "entry_point"
  | equalityMethod => "equality_method"
  | labelledMethod => "labelled_message_method"
  | deferredMethod => "deferred_message_method"
  | toleranceMethod => "tolerance_method"
  | toleranceWrapper => "tolerance_wrapper"
  | messageIndex => "four_arg_message_index"
  | deltaIndex => "four_arg_delta_index"

/-- The entry with a key. -/
def ofKey? (key : String) : Option MappingField := all.find? (·.key = key)

end MappingField

/-- A value for every entry of a migration table. -/
structure GivenMapping where
  value : MappingField → Value

/-- The value that an index in a mapping was read from. -/
def ArgumentIndex.toValue : ArgumentIndex → Value
  | .at_ n => .int n
  | .unusable => .null

/-- The entry of a mapping. -/
def Mapping.entry (m : Mapping) : MappingField → Value
  | .legacyType => .text m.legacyType
  | .legacyMethod => .text m.legacyMethod
  | .fluentType => .text m.fluentType
  | .entryPoint => .text m.entryPoint
  | .equalityMethod => .text m.equalityMethod
  | .labelledMethod => .text m.labelledMethod
  | .deferredMethod => .text m.deferredMethod
  | .toleranceMethod => .text m.toleranceMethod
  | .toleranceWrapper => .text m.toleranceWrapper
  | .messageIndex => m.messageIndex.toValue
  | .deltaIndex => m.deltaIndex.toValue

namespace GivenMapping

/-- The table used when nothing is configured. -/
def standard : GivenMapping := ⟨Mapping.standard.entry⟩

/-- A table with some entries replaced; other keys are passed over. -/
def replace (g : GivenMapping) (entries : List (Value × Value)) : GivenMapping :=
  ⟨fun f => ((Value.mapping entries).get? f.key).getD (g.value f)⟩

/-- A table with some entries replaced; a key that names no entry is a mistake. -/
def override (g : GivenMapping) (entries : List (Value × Value)) : Except Failure GivenMapping :=
  if entries.all fun e => (e.1.text?.bind MappingField.ofKey?).isSome then .ok (g.replace entries)
  else .error (.mishap .wrongType "the migration table has no such entry")

/-- The table as plain data. -/
def toValue (g : GivenMapping) : Value :=
  .record (MappingField.all.map fun f => (f.key, g.value f))

/-- The text of an entry. -/
def textOf (g : GivenMapping) (f : MappingField) : String :=
  ((g.value f).text?).getD ""

/-- The index in an entry. -/
def indexOf (g : GivenMapping) (f : MappingField) : ArgumentIndex :=
  match (g.value f).int? with
  | some n => .at_ n
  | none => .unusable

/-- What the table means. -/
def toMapping (g : GivenMapping) : Mapping where
  legacyType := g.textOf .legacyType
  legacyMethod := g.textOf .legacyMethod
  fluentType := g.textOf .fluentType
  entryPoint := g.textOf .entryPoint
  equalityMethod := g.textOf .equalityMethod
  labelledMethod := g.textOf .labelledMethod
  deferredMethod := g.textOf .deferredMethod
  toleranceMethod := g.textOf .toleranceMethod
  toleranceWrapper := g.textOf .toleranceWrapper
  messageIndex := g.indexOf .messageIndex
  deltaIndex := g.indexOf .deltaIndex

end GivenMapping

/-! ### The settings -/

/-- The settings beside the table, in the order they are checked. -/
inductive Setting where
  | extraFloats
  | extraStrings
  | filePatterns
  | recurse
  | targetRoot
  | targetSuffix
  | dryRun
  | keepBackups
  | backupRoot
  | format
  | lineLength
  | continueOnError
  | concurrency
  | retries
  | sizeLimit
  | logLevel
  deriving DecidableEq, Repr, Inhabited

namespace Setting

/-- All settings in order. -/
def all : List Setting :=
  [extraFloats, extraStrings, filePatterns, recurse, targetRoot, targetSuffix, dryRun, keepBackups, backupRoot, format,
    lineLength, continueOnError, concurrency, retries, sizeLimit, logLevel]

/-- The key of a setting in a configuration. -/
def key : Setting → String
  | extraFloats => "extra_floating_point_types"
  | extraStrings => "extra_string_types"
  | filePatterns => "file_patterns"
  | recurse => "recurse_directories"
  | targetRoot => "target_root"
  | targetSuffix => "target_suffix"
  | dryRun => "dry_run"
  | keepBackups => "backup_originals"
  | backupRoot => "backup_root"
  | format => "format_output"
  | lineLength => "line_length"
  | continueOnError => "continue_on_error"
  | concurrency => "max_concurrent_files"
  | retries => "io_retries"
  | sizeLimit => "max_file_size_mb"
  | logLevel => "log_level"

/-- The setting with a key. -/
def ofKey? (key : String) : Option Setting := all.find? (·.key = key)

/-- The value of a setting that is not configured. -/
def standard : Setting → Value
  | extraFloats => .list []
  | extraStrings => .list []
  | filePatterns => .list [.text "*.py"]
  | recurse => .bool true
  | targetRoot => .null
  | targetSuffix => .text ""
  | dryRun => .bool false
  | keepBackups => .bool true
  | backupRoot => .null
  | format => .bool false
  | lineLength => .int 120
  | continueOnError => .bool false
  | concurrency => .int 1
  | retries => .int 2
  | sizeLimit => .int 10
  | logLevel => .text "INFO"

end Setting

/-- What was given for the migration table: a table, or something else. -/
inductive TableSetting where
  | table (g : GivenMapping)
  | other (v : Value)

/-- The key of the migration table in a configuration. -/
def tableKey : String := "targets"

/-- A configuration: the migration table and a value for every setting. -/
structure Config where
  table : TableSetting
  value : Setting → Value

namespace Config

/-- The configuration used when nothing is configured. -/
def standard : Config := ⟨.table .standard, Setting.standard⟩

/-- Whether a key names something that can be configured. -/
def isKey (key : Value) : Bool :=
  match key with
  | .text k => k = tableKey || (Setting.ofKey? k).isSome
  | _ => false

/-- The table after an override: a mapping is laid over the table there is, anything else takes its place. -/
def overrideTable (current : TableSetting) : Option Value → Except Failure TableSetting
  | none => .ok current
  | some (.mapping es) =>
    match current with
    | .table g => (g.override es).map .table
    | .other _ => .error (.mishap .attribute "the migration table is no table")
  | some v => .ok (.other v)

/-- A configuration with some settings replaced; a key that names no setting is a mistake. -/
def override (c : Config) (entries : List (Value × Value)) : Except Failure Config := do
  let given := Value.mapping entries
  let table ← overrideTable c.table (given.get? tableKey)
  if !entries.all fun e => isKey e.1 then
    throw (.mishap .wrongType "a configuration has no such setting")
  return ⟨table, fun s => (given.get? s.key).getD (c.value s)⟩

/-- The configuration as plain data. -/
def toValue (c : Config) : Value :=
  let table := match c.table with
    | .table g => g.toValue
    | .other v => v
  .record ((tableKey, table) :: Setting.all.map fun s => (s.key, c.value s))

/-! ### Reading settings -/

/-- Whether a setting is switched on. -/
def isOn (c : Config) (s : Setting) : Bool := (c.value s).holds

/-- The text of a setting, if it has one that is not empty. -/
def textOf? (c : Config) (s : Setting) : Option String :=
  (c.value s).text?.filter (· ≠ "")

/-- The migration table of a configuration. -/
def mapping (c : Config) : Except Failure Mapping :=
  match c.table with
  | .table g => .ok g.toMapping
  | .other _ => .error (.mishap .attribute "the migration table is no table")

/-- The vocabulary of a configuration. -/
def vocabulary (c : Config) : Types.Vocabulary :=
  Types.Vocabulary.standard.extended (c.value .extraFloats).texts (c.value .extraStrings).texts

/-- Whether a configuration adds no type names. -/
def hasStandardVocabulary (c : Config) : Bool :=
  !c.isOn .extraFloats && !c.isOn .extraStrings

end Config

end FluentShift
