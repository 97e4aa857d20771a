import FluentShift.Imports.Conflicts
import FluentShift.Rewrite.Emission
import FluentShift.Rewrite.Outcome
import FluentShift.Types.Oracle
import FluentShift.Log

/-!
# FluentShift.Rewrite.Plan - which calls are rewritten, and how

A call is found by what its callee means, and planned before anything is changed, so no call can influence another.
-/

namespace FluentShift.Rewrite

open FluentShift.Source FluentShift.Scope FluentShift.Types FluentShift.Imports

/-- What a rewrite works with. -/
structure Setup where
  mapping : Mapping
  vocabulary : Vocabulary
  oracle : Oracle

/-! ### Finding calls -/

/-- The qualified names of the callee of a call at a path. -/
def calleeNames (table : Table) (p : Path) (call : Tree) : List String :=
  match (Tree.locate p call.children).find? (!·.2.isTrivia) with
  | some (q, f) => table.qualifiedAt (unparenPath f q) f.unparen
  | none => []

/-- Whether names include that of the legacy function. -/
def isLegacy (m : Mapping) (names : List String) : Bool :=
  names.contains m.legacyName

/-- All calls of a tree with their starting places, each before the calls inside it. -/
def allCalls (t : Tree) : List CallSite :=
  ((t.nodesOf .call).zip (t.startsOf .call)).map fun c => ⟨c.1.1, c.1.2, c.2.2⟩

/-- The calls of the legacy function, each before the calls inside it. -/
def collect (m : Mapping) (table : Table) (t : Tree) : List CallSite :=
  (allCalls t).filter fun s => isLegacy m (calleeNames table s.path s.call)

/-! ### Planning -/

/-- The types of the arguments of a call at a path. -/
def argumentTypes (answerer : Answerer) (p : Path) (call : Tree) : List (Option TypeDesc) :=
  (call.argumentsAt p).map fun a => answerer.typeOf a.1 a.2.value

/-- The tags of the arguments of a call at a path. -/
def argumentTags (v : Vocabulary) (answerer : Answerer) (p : Path) (call : Tree) : List Tag :=
  (argumentTypes answerer p call).map v.tag

/-- The first required name that a file binds to something else, as a reason. -/
def conflictReason (conflicts : List (String × String)) (names : List String) : Option String :=
  names.findSome? fun n =>
    (conflicts.lookup n).map fun d => "'" ++ n ++ "' is already bound in this file: " ++ d

/-- How a call with these tags is rewritten, or why it stays. -/
def decideCall (m : Mapping) (conflicts : List (String × String)) (tags : List Tag) (s : CallSite) :
    Except Failure (Rewritten ⊕ Skipped) :=
  -- the reasons in the order in which they are looked for; the first one counts
  if !hasPlainArguments s.call then .ok (.inr ⟨s, "keyword or unpacked arguments"⟩)
  else
    match classify m tags.length tags with
    | .error f => if f.isTransformation then .ok (.inr ⟨s, f.message⟩) else .error f
    | .ok c =>
      match conflictReason conflicts (requiredNames m c) with
      | some reason => .ok (.inr ⟨s, reason⟩)
      | none => .ok (.inl ⟨s, c, tags⟩)

/-- Plans calls in order, and logs every one that stays. -/
def planAll (m : Mapping) (decide : CallSite → Except Failure (Rewritten ⊕ Skipped)) :
    List CallSite → Run (List Rewritten × List Skipped)
  | [] => return ([], [])
  | s :: ss => do
    match ← Run.ofExcept (decide s) with
    | .inl r =>
      let (rs, ks) ← planAll m decide ss
      return (r :: rs, ks)
    | .inr k =>
      Run.log .info ("Skipped " ++ m.legacyMethod ++ " call at " ++ s.position.describe ++ ": " ++ k.reason)
      let (rs, ks) ← planAll m decide ss
      return (rs, k :: ks)

end FluentShift.Rewrite
