import FluentShift.Engine.Context
import FluentShift.Files.Disk
import FluentShift.Source.File
import FluentShift.Types.Oracle

/-!
# FluentShift.Migration.Tools - what a migration works with

The types of arguments come from an oracle, and a formatter formats the new texts.  Where several files are worked on at
once, a pool of threads says in which order they come to their turns.
-/

namespace FluentShift.Migration

open FluentShift.Files

/-! ### Formatting -/

/-- What formatting a text comes to. -/
inductive Formatting where
  | formatted (code : String)
  /-- The text cannot be formatted; it stays as it is. -/
  | declined (message : String)
  | raised (f : Failure)

namespace Formatting

/-- What follows on a formatted text. -/
def andThen : Formatting → (String → Formatting) → Formatting
  | .formatted code, next => next code
  | r, _ => r

/-- The text that a text is after formatting. -/
def text (code : String) : Formatting → Except Failure String
  | .formatted code' => .ok code'
  | .declined _ => .ok code
  | .raised f => .error f

end Formatting

/-- What texts are formatted by. -/
structure Layout where
  lineLength : Value
  /-- The package that counts as somebody else's. -/
  thirdParty : String

/-- The layout that a configuration asks for. -/
def layoutOf (c : Config) : Except Failure Layout :=
  c.mapping.map fun m => ⟨c.lineLength, (Text.split '.' m.fluentType).headD ""⟩

/-- Formats texts: their imports are sorted first, which may look at the disk, and then their lines are laid out. -/
structure Formatter where
  sortImports : Disk → Layout → String → Formatting
  layOut : Layout → String → Formatting

namespace Formatter

/-- Formats a text. -/
def run (f : Formatter) (d : Disk) (l : Layout) (code : String) : Formatting :=
  (f.sortImports d l code).andThen (f.layOut l)

/-- Nothing that lies on the disk makes a difference. -/
def IgnoresDisk (f : Formatter) : Prop := ∀ d d', f.sortImports d = f.sortImports d'

end Formatter

/-- Whether a text can be parsed. -/
def parses (code : String) : Bool := (Source.SourceFile.parse? code).isSome

/-- A formatter for texts that are formatted already; texts that cannot be parsed are declined. -/
def Formatter.keeping : Formatter where
  sortImports _ _ code := .formatted code
  layOut _ code := if parses code then .formatted code else .declined "Cannot parse"

/-! ### Pools of threads -/

/-- What happens in a pool: a file is worked on, or its result is looked at. -/
inductive Turn where
  | work (source : String)
  | look (source : String)
  deriving DecidableEq, Repr, Inhabited

namespace Turn

/-- The files that are worked on, in order. -/
def worked (turns : List Turn) : List String :=
  turns.filterMap fun
    | .work s => some s
    | .look _ => none

/-- The files whose results are looked at, in order. -/
def looked (turns : List Turn) : List String :=
  turns.filterMap fun
    | .work _ => none
    | .look s => some s

end Turn

/-- The turns are a way to go through files: each is worked on once, and looked at once after that. -/
structure IsSchedule (files : List String) (turns : List Turn) : Prop where
  worked : (Turn.worked turns).Perm files
  looked : (Turn.looked turns).Perm files
  after : ∀ before s rest, turns = before ++ .look s :: rest → .work s ∈ before

/-- A pool of threads: the turns in which it goes through files, and the files that it has begun to work on when a list is
broken off. -/
structure Pool where
  turns : List String → List Turn
  schedule : ∀ files, IsSchedule files (turns files)
  begun : String → Bool

/-- One file after the other, each looked at when it is done. -/
def oneByOne (files : List String) : List Turn := files.flatMap fun s => [.work s, .look s]

theorem isSchedule_oneByOne (files : List String) : IsSchedule files (oneByOne files) where
  worked := by
    refine List.Perm.of_eq ?_
    induction files with
    | nil => rfl
    | cons s files ih => exact congrArg (s :: ·) ih
  looked := by
    refine List.Perm.of_eq ?_
    induction files with
    | nil => rfl
    | cons s files ih => exact congrArg (s :: ·) ih
  after := by
    induction files with
    | nil => exact fun before s rest h => absurd h (by simp [oneByOne])
    | cons s files ih =>
      intro before s' rest h
      match before with
      | [] => cases h
      | [t] =>
        cases h
        exact List.mem_singleton_self _
      | t :: t' :: before =>
        simp only [oneByOne, List.flatMap_cons, List.cons_append, List.nil_append, List.cons.injEq] at h
        exact List.mem_cons_of_mem _ (List.mem_cons_of_mem _ (ih before s' rest h.2.2))

/-- A pool that works on one file after the other. -/
def Pool.ofOne : Pool := ⟨oneByOne, isSchedule_oneByOne, fun _ => false⟩

/-! ### Tools -/

/-- What a migration works with. -/
structure Tools where
  oracle : Types.Oracle
  formatter : Formatter
  pool : Pool

/-- Types from the file itself, texts that are formatted already, and one file after the other. -/
def Tools.standard : Tools := ⟨.local_, .keeping, .ofOne⟩

end FluentShift.Migration
