import FluentShift.Config.Validation
import FluentShift.Migration.Discover
import FluentShift.Migration.Jobs

/-!
# FluentShift.Migration.Batch - migrating files, lists of files and directories

Every file goes through the pipeline on its own.  A list of files stops at the first one that fails, or goes on and says
in the end which ones failed.  Its files are worked on one after the other, or several of them at once.
-/

namespace FluentShift.Migration

open FluentShift.Files FluentShift.Engine FluentShift.Types

/-- Something done in a session that a setting without a meaning can stop. -/
abbrev Attempt := ExceptT Failure Act

/-- What only fails or gives a value. -/
def Attempt.ofExcept {α : Type} (e : Except Failure α) : Attempt α :=
  match e with
  | .ok a => pure a
  | .error f => throw f

/-! ### One file -/

/-- The bytes in a megabyte. -/
def megabyte : Nat := 1048576

/-- A size in megabytes with one decimal; a half goes to the even neighbour. -/
def sizeText (size : Nat) : String :=
  let tenths := size * 10 / megabyte
  let rest := size * 10 % megabyte
  -- half to even
  let up := megabyte < rest * 2 || (rest * 2 = megabyte && tenths % 2 = 1)
  let n := if up then tenths + 1 else tenths
  toString (n / 10) ++ "." ++ toString (n % 10)

/-- Whether a size is above the limit in megabytes; only a number is a limit. -/
def isTooLarge (c : Config) (size : Nat) : Except Failure Bool :=
  match (c.value .sizeLimit).decimal? with
  | some (limit, places) => .ok (limit * megabyte < size * Value.powerOfTen places)
  | none => .error (.mishap .wrongType "the largest size is no number")

/-- How migrating a file ends for the log. -/
def logOutcome (source : String) (r : Result Payload) : Act Unit :=
  if r.isError then
    Act.log .error ("Migration failed for " ++ source ++ ": " ++ (r.error.map Failure.message).getD "None")
  else Act.log .info ("Migrated " ++ source)

/-- Migrates the text of a file. -/
def migrateText (tools : Tools) (c : Config) (runId source : String) (path : FilePath) (code : String) :
    Attempt (Result Payload) := do
  let context ← Attempt.ofExcept (Context.create path.text none c none runId)
  let r ← (pipeline tools).run (context.note originalKey (.text code)) (some (.plain (.text code)))
  logOutcome source r
  return r

/-- Migrates a file. -/
def migrateFile (tools : Tools) (c : Config) (runId source : String) : Attempt (Result Payload) := do
  let about : Metadata := [("source_file", .text source)]
  let disk := (← getThe Session).desk.disk
  match validateSource disk source with
  | .error (.path message file kind) => return .failure (.path message file kind) about
  | .error f => throw f
  | .ok path =>
    -- the size is looked at before anything is read
    let size := ((disk.content? path.text).map ByteArray.size).getD 0
    if ← Attempt.ofExcept (isTooLarge c size) then
      return .skipped (.text ("File is " ++ sizeText size ++ "MB, larger than max_file_size_mb=" ++
        (c.value .sizeLimit).shown)) about
    match ← ExceptT.lift (Act.work (readSource path.text (retriesOf c))) with
    | .error f =>
      Act.log .error ("Cannot read " ++ source ++ ": " ++ f.message)
      return .failure f about
    | .ok code => migrateText tools c runId source path code

/-! ### Lists of files -/

/-- What a list of files came to, as a whole and file by file. -/
structure Batch where
  result : Result (List String)
  files : List (String × Result Payload)

/-- The files that failed. -/
def failedFiles (rs : List (String × Result Payload)) : List String :=
  (rs.filter fun r => r.2.isError).map (·.1)

/-- The files that were passed over. -/
def skippedFiles (rs : List (String × Result Payload)) : List String :=
  (rs.filter fun r => r.2.isSkipped).map (·.1)

/-- The data of a result in words. -/
def dataText (r : Result Payload) : String := (dataOf r.data).shown

/-- The targets of the files that were migrated. -/
def targets (rs : List (String × Result Payload)) : List String :=
  (rs.filter fun r => !r.2.isError && !r.2.isSkipped).map fun r => dataText r.2

/-- The result of a list of files that were all migrated, passed over or failed. -/
def summary (rs : List (String × Result Payload)) : Result (List String) :=
  let metadata : Metadata :=
    [("failed_files", .ofTexts (failedFiles rs)), ("skipped_files", .ofTexts (skippedFiles rs))]
  match failedFiles rs with
  | [] => .success (targets rs) metadata
  | failed =>
    .warning (targets rs)
      ["Failed to migrate " ++ toString failed.length ++ " files: " ++ String.intercalate ", " failed] metadata

/-- The line for a list of files that was worked through. -/
def summaryLine (rs : List (String × Result Payload)) : String :=
  "Migration completed: " ++ toString (targets rs).length ++ " migrated, " ++ toString (failedFiles rs).length ++
    " failed, " ++ toString (skippedFiles rs).length ++ " skipped"

/-- The result of a list of files that stopped at one that failed. -/
def stopped (source : String) (r : Result Payload) : Result (List String) :=
  .failure (r.error.getD (.mishap .state ("Migration failed for " ++ source))) [("failed_file", .text source)]

/-- Migrates files in order, up to the first failure unless it goes on regardless; `rs` are the results so far. -/
def migrateInOrder (migrate : String → Attempt (Result Payload)) (goOn : Bool) :
    List (String × Result Payload) → List String → Attempt Batch
  | rs, [] => do
    Act.log .info (summaryLine rs)
    return ⟨summary rs, rs⟩
  | rs, source :: sources => do
    let r ← migrate source
    if r.isError && !goOn then return ⟨stopped source r, rs ++ [(source, r)]⟩
    else migrateInOrder migrate goOn (rs ++ [(source, r)]) sources

/-! ### Several files at once -/

/-- The results of files, in the order of the sources. -/
def inOrderOf (sources : List String) (rs : List (String × Result Payload)) : List (String × Result Payload) :=
  sources.filterMap fun s => (rs.lookup s).map fun r => (s, r)

/-- What working on files came to, file by file; a setting without a meaning stops a file. -/
abbrev Worked := List (String × Except Failure (Result Payload))

/-- Works on files one after the other, each as one step, whatever becomes of the others. -/
def workOff (migrate : String → Attempt (Result Payload)) : List String → Act Unit
  | [] => return ()
  | source :: sources => do
    let _ ← (migrate source).run
    workOff migrate sources

/-- Takes turns with files until all results were looked at.  A result that fails breaks the list off unless it goes on
regardless: then only the files are worked on that were begun.  When a file was stopped, all others are worked on before
that is known.  `done` says what has come of the files that were worked on, `rs` are the results that were looked at. -/
def takeTurns (migrate : String → Attempt (Result Payload)) (goOn : Bool) (begun : String → Bool)
    (sources : List String) : Worked → List (String × Result Payload) → List Turn → Attempt Batch
  | _, rs, [] => do
    Act.log .info (summaryLine (inOrderOf sources rs))
    return ⟨summary (inOrderOf sources rs), rs⟩
  | done, rs, .work source :: turns => do
    let answer ← ExceptT.lift (migrate source).run
    takeTurns migrate goOn begun sources (done ++ [(source, answer)]) rs turns
  | done, rs, .look source :: turns => do
    match done.lookup source with
    | none => takeTurns migrate goOn begun sources done rs turns
    | some (.error f) =>
      -- what is raised is only passed on when the pool has closed, and until then it works
      ExceptT.lift (workOff migrate (Turn.worked turns))
      throw f
    | some (.ok r) =>
      if r.isError && !goOn then
        -- what has not begun is cancelled
        ExceptT.lift (workOff migrate ((Turn.worked turns).filter begun))
        return ⟨stopped source r, rs ++ [(source, r)]⟩
      else takeTurns migrate goOn begun sources done (rs ++ [(source, r)]) turns

/-- Migrates files in a pool of threads. -/
def Pool.migrate (p : Pool) (migrate : String → Attempt (Result Payload)) (goOn : Bool) (sources : List String) :
    Attempt Batch :=
  takeTurns migrate goOn p.begun sources [] [] (p.turns sources)

/-! ### Lists -/

/-- Migrates a list of files, each once, in a way to migrate a file: one after the other, or in a pool of threads if there
are several and that is asked for. -/
def migrateListed (migrate : String → Attempt (Result Payload)) (pool : Pool) (c : Config) (sources : List String) :
    Attempt Batch := do
  let sources := sources.eraseDups
  if sources.isEmpty then return ⟨.success [] [], []⟩
  if (← Attempt.ofExcept c.isConcurrent) && 1 < sources.length then
    pool.migrate migrate (c.isOn .continueOnError) sources
  else migrateInOrder migrate (c.isOn .continueOnError) [] sources

/-- Migrates a list of files. -/
def migrateFiles (tools : Tools) (c : Config) (runId : String) (sources : List String) : Attempt Batch :=
  migrateListed (migrateFile tools c runId) tools.pool c sources

/-! ### Directories -/

/-- Migrates the files below a directory that may have work. -/
def migrateDirectory (tools : Tools) (c : Config) (runId directory : String) : Attempt Batch := do
  let disk := (← getThe Session).desk.disk
  if (← Attempt.ofExcept (disk.find (FilePath.ofString directory).text)) ≠ some .directory then
    return ⟨.failure (.path ("Path is not a directory: " ++ directory) directory "not_a_directory") [], []⟩
  Act.log .info ("Starting migration of directory " ++ directory)
  let files ← Attempt.ofExcept (discover disk c directory)
  if files.isEmpty then
    let m ← Attempt.ofExcept c.mapping
    Act.log .warning ("No files using " ++ m.legacyName ++ " found in " ++ directory)
    return ⟨.success [] [], []⟩
  Act.log .info ("Found " ++ toString files.length ++ " files to migrate")
  migrateFiles tools c runId files

/-! ### Everything at once -/

/-- The weights of the levels that a log can be kept at. -/
def levelWeights : List (String × Int) :=
  [("CRITICAL", 50), ("FATAL", 50), ("ERROR", 40), ("WARNING", 30), ("WARN", 30), ("INFO", 20), ("DEBUG", 10),
   ("NOTSET", 0)]

/-- The weight of a line of the log. -/
def weightOf (l : Level) : Int := (levelWeights.lookup l.label).getD 0

/-- The least weight that a log kept at a level shows. -/
def leastWeight : Value → Except Failure Int
  | .text s =>
    match levelWeights.lookup s with
    | some n => .ok n
    | none => .error (.mishap .value ("Unknown level: " ++ Text.quoted s))
  | .int n => .ok n
  | .bool b => .ok (if b then 1 else 0)
  | _ => .error (.mishap .wrongType "a level is a name or a number")

/-- Does something and keeps only the lines of its log that weigh enough. -/
def quietly {α : Type} (least : Int) (a : Attempt α) : Attempt α := fun s =>
  let (answer, s') := a.run.run { s with desk := { s.desk with log := [] } }
  let lines := s'.desk.log.filter fun l => least ≤ weightOf l.level
  (answer, { s' with desk := { s'.desk with log := s.desk.log ++ lines } })

/-- The files that paths mean: those below a directory that may have work, and anything else itself. -/
def expand (d : Disk) (c : Config) (paths : List String) : Except Failure (List String) := do
  let files ← paths.mapM fun p => if d.hasDirectory (FilePath.ofString p).text then discover d c p else .ok [p]
  return files.flatten

/-- The texts that were made but not written, by target; a later one takes the place of an earlier one. -/
def generatedCode (rs : List (String × Result Payload)) : Metadata :=
  rs.foldl (fun m r =>
    match r.2.metadata.get? "generated_code" with
    | some code => if code.same .null || r.2.data.isNone then m else m.put (dataText r.2) code
    | none => m) []

/-- A batch with the texts that were not written. -/
def Batch.withGeneratedCode (b : Batch) : Batch :=
  { b with result := { b.result with metadata := b.result.metadata.put "generated_code" (.record (generatedCode b.files)) } }

/-- Migrates files and directories. -/
def migrate (tools : Tools) (c : Config) (runId : String) (paths : List String) : Attempt Batch := do
  let least ← Attempt.ofExcept (leastWeight (c.value .logLevel))
  quietly least do
    let files ← Attempt.ofExcept (expand (← getThe Session).desk.disk c paths)
    let b ← migrateFiles tools c runId files
    return if b.result.isOk && c.isOn .dryRun then b.withGeneratedCode else b

end FluentShift.Migration
