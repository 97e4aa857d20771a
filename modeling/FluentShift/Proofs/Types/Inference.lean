import FluentShift.Proofs.Scope.Steady
import FluentShift.Types.Infer

/-!
# FluentShift.Proofs.Types.Inference - the type of a node from the types of its parts

One equation for each kind of node that an inference looks into.  The parts of a node stand at its path with one more
step.
-/

namespace FluentShift.Types

open FluentShift.Source FluentShift.Source.Tree FluentShift.Scope

namespace Typing

variable (ty : Typing) {p : Path} {ts : List Tree} {a b c : Tree × Nat} {bs : List (Tree × Nat)}

/-- The type of a tree, and for an attribute the type of what it belongs to. -/
def inferred (e : Tree) : Inferred := Tree.para (fun l p => (ty.inferLeaf l p, none)) ty.inferNode e

theorem inferred_node (k : Kind) (ts : List Tree) (p : Path) :
    ty.inferred (.node k ts) p = ty.inferNode k (ts.map fun t => (t, ty.inferred t)) p := by
  rw [inferred, para_node]
  rfl

/-- The children that a node is judged by. -/
theorem locate_inferred (p : Path) (ts : List Tree) :
    (locate p (ts.map fun t => (t, ty.inferred t))).filter (fun c => !c.2.1.isTrivia) =
      (placedParts ts).map fun b => (b.2 :: p, b.1, ty.inferred b.1) := by
  simp only [locate, List.zipIdx_map, List.map_map, List.filter_map, placedParts]
  rfl

theorem infer_paren (h : placedParts ts = [a, b, c]) : ty.infer p (.node .paren ts) = ty.infer (b.2 :: p) b.1 := by
  show (ty.inferred (.node .paren ts) p).1 = _
  rw [inferred_node]
  unfold inferNode
  simp only [locate_inferred, h, List.map_cons, List.map_nil]
  rfl

theorem infer_concatenation : ty.infer p (.node .concatenation ts) = some .str := by
  show (ty.inferred (.node .concatenation ts) p).1 = _
  rw [inferred_node]
  rfl

theorem infer_unaryOp (h : placedParts ts = [a, b]) :
    ty.infer p (.node .unaryOp ts) = if a.1.isMark "not" then some .bool else ty.infer (b.2 :: p) b.1 := by
  show (ty.inferred (.node .unaryOp ts) p).1 = _
  rw [inferred_node]
  unfold inferNode
  simp only [locate_inferred, h, List.map_cons, List.map_nil]
  rfl

theorem infer_binaryOp (h : placedParts ts = [a, b, c]) :
    ty.infer p (.node .binaryOp ts) = ty.binary b.1.text (ty.infer (a.2 :: p) a.1) (ty.infer (c.2 :: p) c.1) := by
  show (ty.inferred (.node .binaryOp ts) p).1 = _
  rw [inferred_node]
  unfold inferNode
  simp only [locate_inferred, h, List.map_cons, List.map_nil]
  rfl

theorem infer_call (h : placedParts ts = a :: bs) :
    ty.infer p (.node .call ts) = ty.called (a.2 :: p) a.1 (ty.inferred a.1 (a.2 :: p)).2 := by
  show (ty.inferred (.node .call ts) p).1 = _
  rw [inferred_node]
  unfold inferNode
  simp only [locate_inferred, h, List.map_cons]

end Typing

end FluentShift.Types
