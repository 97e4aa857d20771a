import FluentShift.Files.Disk

/-!
# FluentShift.Files.System - what the system allows

What lies on a disk says whether a request makes sense.  The system may refuse one that does, for good or only for now:
`Answers` says what it refuses at one time, and a `System` what it refuses at each attempt.  Looking is always allowed.
-/

namespace FluentShift.Files

/-! ### Requests -/

/-- What the system is asked for. -/
inductive Request where
  | read (place : Place)
  | write (place : Place)
  | makeDirectory (place : Place)
  deriving DecidableEq, Repr, Inhabited

/-- What the system may have against a request that makes sense. -/
inductive Obstacle where
  | permission
  | trouble
  deriving DecidableEq, Repr, Inhabited

/-- The fault that an obstacle shows as. -/
def Obstacle.fault : Obstacle → SystemFault
  | .permission => .permission
  | .trouble => .other

/-- What the system has against requests. -/
structure Answers where
  obstacle? : Request → Option Obstacle

namespace Answers

/-- Everything is allowed. -/
def granting : Answers := ⟨fun _ => none⟩

/-- What a request on a path comes to, from what it would come to if it were allowed. -/
def grant {α : Type} (a : Answers) (q : Request) (path : String) : Except Failure α → Except Failure α
  | .error f => .error f
  | .ok x =>
    match a.obstacle? q with
    | some o => .error (Disk.refusal o.fault path)
    | none => .ok x

end Answers

/-- What the system has against requests at the first attempt, the second, and so on. -/
structure System where
  answers : Nat → Answers

namespace System

/-- Everything is allowed at every attempt. -/
def calm : System := ⟨fun _ => .granting⟩

/-- The same is allowed at every attempt. -/
def steady (a : Answers) : System := ⟨fun _ => a⟩

end System

/-! ### Operations -/

namespace Disk

/-- Reads a file, if that is allowed. -/
def readUnder (d : Disk) (a : Answers) (path : String) : Except Failure ByteArray :=
  a.grant (.read (Place.named path)) path (d.read path)

/-- Writes a file whose directory exists, if that is allowed. -/
def writeUnder (d : Disk) (a : Answers) (path : String) (content : ByteArray) : Except Failure Disk :=
  a.grant (.write (Place.named path)) path (d.write path content)

/-- Makes one directory, if that is allowed. -/
def makeDirectoryUnder (d : Disk) (a : Answers) (path : String) : Except Failure Disk :=
  a.grant (.makeDirectory (Place.named path)) path (d.makeDirectory path)

/-- Makes a directory and all that is missing above it, trying as many levels as the path has parts. -/
def makeDirectoriesFrom (d : Disk) (a : Answers) (path : FilePath) (mayExist : Bool) : Nat → Disk × Option Failure
  | 0 => (d, some (refusal .missing path.text))
  | levels + 1 =>
    match d.makeDirectoryUnder a path.text with
    | .ok d' => (d', none)
    | .error (.system .missing m) =>
      if path.parent = path then (d, some (.system .missing m))
      else
        match makeDirectoriesFrom d a path.parent true levels with
        | (d', some f) => (d', some f)
        | (d', none) =>
          match d'.makeDirectoryUnder a path.text with
          | .ok d'' => (d'', none)
          | .error f => (d', if mayExist && !f.isMissing && d'.hasDirectory path.text then none else some f)
    | .error f => (d, if mayExist && d.hasDirectory path.text then none else some f)

/-- Makes a directory and all that is missing above it.  What was made before a failure stays. -/
def makeDirectories (d : Disk) (a : Answers) (path : FilePath) (mayExist : Bool) : Disk × Option Failure :=
  d.makeDirectoriesFrom a path mayExist (path.parts.length + 1)

end Disk

end FluentShift.Files
