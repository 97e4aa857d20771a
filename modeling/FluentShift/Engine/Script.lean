import FluentShift.Engine.Unit
import FluentShift.Value.Arithmetic

/-!
# FluentShift.Engine.Script - steps described by data

A `Script` says in a word or two what a step does; such steps show how units hang together without touching files.
-/

namespace FluentShift.Engine

/-- What a step does. -/
inductive Script where
  | add (n : Value)
  | warn (n : Value) (warnings : List String)
  | fail (message : String)
  | failEmpty
  | break_ (message : String)
  | skip (reason : Value)
  | nothing
  | renew (key : String) (v : Value)
  | look
  deriving Inhabited

/-- The sum of what a step got and a value. -/
def addTo (input : Option Payload) (n : Value) : Except Failure Value :=
  match input with
  | some (.plain v) => v.plus n
  | none => Value.null.plus n
  | some _ => .error (.mishap .wrongType "there is nothing to add to")

/-- What a script comes to. -/
def Script.result (s : Script) (metadata : Metadata) (c : Context) (input : Option Payload) :
    Except Failure (Result Payload) :=
  match s with
  | .add n => do return .success (.plain (← addTo input n)) metadata
  | .warn n warnings => do return .warning (.plain (← addTo input n)) warnings metadata
  | .fail message => .ok (.failure (.mishap .state message) metadata)
  | .failEmpty => .ok (.failure? none metadata)
  | .break_ message => .error (.mishap .value message)
  | .skip reason => .ok (.skipped reason metadata)
  | .nothing => .ok (.success? none metadata)
  | .renew key v => .ok (.success (.context (c.note key v)) metadata)
  | .look => .ok (.success (.observed input c.metadata) metadata)

/-- The step of a script. -/
def Script.step (s : Script) (name type : String) (metadata : Metadata) : Step where
  name := name
  type := type
  execute c input := do return .ofResult (← Files.Work.ofExcept (s.result metadata c input))

end FluentShift.Engine
