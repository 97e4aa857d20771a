import FluentShift.Value

/-!
# FluentShift.Failure - why something failed

One constructor per cause.  The failures of this program carry details that name the file, the call or the setting at
fault; the others come from the file system, from decoding a file or from code that a caller supplied.
-/

namespace FluentShift

/-- One complaint about a configuration: where, against which rule, in which words. -/
structure Complaint where
  place : List String
  rule : String
  message : String
  deriving Repr, DecidableEq, Inhabited

/-- What the file system refused. -/
inductive SystemFault where
  | missing
  | isDirectory
  | notDirectory
  | exists_
  | permission
  | tooLong
  | other
  deriving Repr, DecidableEq, Inhabited

/-- What went wrong in supplied code, or in the use of a value of the wrong type. -/
inductive Mishap where
  | state
  | value
  | wrongType
  | index
  | attribute
  | key
  | overflow
  | unsupported
  | general
  deriving Repr, DecidableEq, Inhabited

/-- Why a text is not source code. -/
inductive SourceFault where
  | template
  | malformed
  | indentation
  | tabs
  | node
  deriving Repr, DecidableEq, Inhabited

/-- A failure and its cause. -/
inductive Failure where
  | migration (message : String) (details : List (String × Value))
  | parse (message file : String) (line column : Option Int)
  | transformation (message : String) (pattern node : Option String)
  | unsupportedCall (message : String) (count : Option Int)
  | reconciliation (message : String) (module : Option String)
  | badOutput (message : String)
  | validation (message kind : String) (field : Option String)
  | path (message path kind : String)
  | configuration (message : String) (key : Option String) (complaints : List Complaint)
  | system (fault : SystemFault) (message : String)
  | undecodable (message : String)
  | source (fault : SourceFault) (message : String)
  | mishap (cause : Mishap) (message : String)
  deriving Repr, Inhabited

namespace Failure

/-- The words of a failure. -/
def message : Failure → String
  | .migration m _ | .parse m _ _ _ | .transformation m _ _ | .unsupportedCall m _ | .reconciliation m _
  | .badOutput m | .validation m _ _ | .path m _ _ | .configuration m _ _ | .system _ m | .undecodable m
  | .source _ m | .mishap _ m => m

/-- A detail that is only there when its text is not empty. -/
def detail (key : String) : Option String → List (String × Value)
  | some s => if s = "" then [] else [(key, .text s)]
  | none => []

/-- A detail that is only there when it is known. -/
def known (key : String) : Option Int → List (String × Value)
  | some n => [(key, .int n)]
  | none => []

/-- The details of the failures of this program; the others have none. -/
def details? : Failure → Option (List (String × Value))
  | .migration _ ds => some ds
  | .parse _ file line column => some (("source_file", .text file) :: known "line" line ++ known "column" column)
  | .transformation _ pattern node => some (detail "pattern_type" pattern ++ detail "node_type" node)
  | .unsupportedCall _ count =>
    some ([("pattern_type", .text "unsupported"), ("node_type", .text "Call")] ++ known "arg_count" count)
  | .reconciliation _ module => some (("pattern_type", .text "imports") :: detail "module" module)
  | .badOutput _ => some [("pattern_type", .text "validation")]
  | .validation _ kind field => some (("validation_type", .text kind) :: detail "field" field)
  | .path _ file kind => some (("validation_type", .text kind) :: detail "field" (some file))
  | .configuration _ key _ => some (detail "config_key" key)
  | _ => none

/-- The name of the kind of a failure. -/
def typeName : Failure → String
  | .migration .. => "MigrationError"
  | .parse .. => "ParseError"
  | .transformation .. => "TransformationError"
  | .unsupportedCall .. => "UnsupportedCallShapeError"
  | .reconciliation .. => "ImportReconciliationError"
  | .badOutput .. => "TransformationValidationError"
  | .validation .. => "ValidationError"
  | .path .. => "PathValidationError"
  | .configuration .. => "ConfigurationError"
  | .system .missing _ => "FileNotFoundError"
  | .system .isDirectory _ => "IsADirectoryError"
  | .system .notDirectory _ => "NotADirectoryError"
  | .system .exists_ _ => "FileExistsError"
  | .system .permission _ => "PermissionError"
  | .system .tooLong _ | .system .other _ => "OSError"
  | .undecodable _ => "UnicodeDecodeError"
  | .source .template _ => "ParserSyntaxError"
  | .source .malformed _ => "SyntaxError"
  | .source .indentation _ => "IndentationError"
  | .source .tabs _ => "TabError"
  | .source .node _ => "CSTValidationError"
  | .mishap .state _ => "RuntimeError"
  | .mishap .value _ => "ValueError"
  | .mishap .wrongType _ => "TypeError"
  | .mishap .index _ => "IndexError"
  | .mishap .attribute _ => "AttributeError"
  | .mishap .key _ => "KeyError"
  | .mishap .overflow _ => "OverflowError"
  | .mishap .unsupported _ => "NotImplementedError"
  | .mishap .general _ => "Exception"

/-- The names of the kinds that a failure of this program is of, the narrowest first. -/
def typeNames (f : Failure) : List String :=
  match f with
  | .migration .. => [f.typeName]
  | .unsupportedCall .. | .reconciliation .. | .badOutput .. => [f.typeName, "TransformationError", "MigrationError"]
  | .path .. => [f.typeName, "ValidationError", "MigrationError"]
  | .parse .. | .transformation .. | .validation .. | .configuration .. => [f.typeName, "MigrationError"]
  | _ => [f.typeName]

/-- Whether the failure is one of rewriting a call or its imports. -/
def isTransformation : Failure → Bool
  | .transformation .. | .unsupportedCall .. | .reconciliation .. | .badOutput .. => true
  | _ => false

/-- Whether the file system refused something. -/
def isSystem : Failure → Bool
  | .system .. => true
  | _ => false

/-- Whether a configuration makes no sense. -/
def isConfiguration : Failure → Bool
  | .configuration .. => true
  | _ => false

/-- Whether something was not there. -/
def isMissing : Failure → Bool
  | .system .missing _ => true
  | _ => false

end Failure

end FluentShift
