import FluentShift.Rewrite.Emission
import FluentShift.Rewrite.Outcome
import FluentShift.Text.Identifier

/-!
# FluentShift.Rewrite.Splice - putting the chains into the tree

`splice` walks a tree once.  A planned call becomes its chain after the calls inside it have become theirs; a call
whose chain cannot be written stays, with the changes inside it.  A chain may not run into the keyword before it.
-/

namespace FluentShift.Rewrite

open FluentShift.Source

/-! ### Keywords before a chain -/

/-- Whether a tree starts with a character that would run into a word before it. -/
def startsWithWord (t : Tree) : Bool :=
  (t.text.toList.head?.map Text.isNameContinue).getD false

/-- What is wrong when an expression follows a keyword of a node without a space. -/
def spacingFault (k : Kind) (keyword : String) : String :=
  match k, keyword with
  | .comparison, _ => "Must have at least one space around comparison operator."
  | .boolOp, _ => "Must have at least one space around boolean operator."
  | .unaryOp, _ => "Must have at least one space after not operator."
  | .awaitExpr, _ => "Must have at least one space after await"
  | .withStmt, _ => "Must have at least one space after with keyword."
  | .withItem, _ => "There must be at least one space between 'as' and name."
  | .handler, _ => "Must have at least one space after except when ExceptHandler has a type."
  | .returnStmt, _ | .raiseStmt, _ | .assertStmt, _ | .delStmt, _ => after ++ "'."
  | .yieldExpr, "from" => after ++ "'."
  | .ifStmt, _ => "Must have at least one space after 'if' keyword."
  | _, _ => after ++ "' keyword."
where
  /-- The words that most faults share. -/
  after : String := "Must have at least one space after '" ++ keyword

/-- The first keyword among the children of a node that an expression runs into. -/
def spacingClash (k : Kind) : List Tree → Option String
  | a :: b :: ts =>
    match a with
    | .leaf l =>
      if l.kind = .mark && startsWithWord a && !b.isTrivia && startsWithWord b then some (spacingFault k l.text)
      else spacingClash k (b :: ts)
    | .node _ _ => spacingClash k (b :: ts)
  | _ => none

/-! ### The walk -/

/-- A tree after splicing, the calls that became chains and those whose chain could not be written, innermost
first. -/
structure Spliced where
  tree : Tree
  applied : List Path
  failed : List (Path × String)
  deriving Inhabited, Repr

/-- Splices children one after the other. -/
def spliceAll : List (Path × (Path → Except Failure Spliced)) →
    Except Failure (List Tree × List Path × List (Path × String))
  | [] => .ok ([], [], [])
  | c :: cs => do
    let s ← c.2 c.1
    let r ← spliceAll cs
    return (s.tree :: r.1, s.applied ++ r.2.1, s.failed ++ r.2.2)

/-- Splices one node whose children are spliced. -/
def spliceNode (m : Mapping) (plans : List (Path × Classification)) (k : Kind) (p : Path) (ts : List Tree)
    (applied : List Path) (failed : List (Path × String)) : Except Failure Spliced :=
  match spacingClash k ts with
  | some message => .error (.source .node message)
  | none =>
    match plans.lookup p with
    | none => .ok ⟨.node k ts, applied, failed⟩
    | some c =>
      match emit m c (.node k ts) with
      | .ok chain => .ok ⟨chain, applied ++ [p], failed⟩
      | .error f =>
        -- a call whose chain cannot be written stays, with the chains that are inside it
        if f.isTransformation then .ok ⟨.node k ts, applied, failed ++ [(p, f.message)]⟩ else .error f

/-- Puts the chains of the planned calls into a tree. -/
def splice (m : Mapping) (plans : List (Path × Classification)) (t : Tree) : Except Failure Spliced :=
  let leaf : Leaf → Path → Except Failure Spliced := fun l _ => .ok ⟨.leaf l, [], []⟩
  let node : Kind → List (Tree × (Path → Except Failure Spliced)) → Path → Except Failure Spliced := fun k ts p => do
    let r ← spliceAll (Tree.locate p (ts.map (·.2)))
    spliceNode m plans k p r.1 r.2.1 r.2.2
  Tree.para leaf node t []

end FluentShift.Rewrite
