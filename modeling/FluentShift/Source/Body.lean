import FluentShift.Source.Tree

/-!
# FluentShift.Source.Body - statements and what stands before them

The children of a module, a block or a line as `Item`s: every child that is no trivia together with the trivia before
it.  `items_flatten`: taking children apart and putting them together again gives the same children.
-/

namespace FluentShift.Source

/-- A child that is no trivia, and the trivia before it. -/
structure Item where
  lead : List Tree
  body : Tree
  deriving Inhabited, Repr

namespace Item

/-- The children that an item stands for. -/
def trees (i : Item) : List Tree := i.lead ++ [i.body]

/-- The children that items stand for. -/
def flatten (is : List Item) : List Tree := is.flatMap trees

end Item

/-- Children as items, and the trivia after the last of them; `lead` is the trivia read so far. -/
def itemsIn (lead : List Tree) : List Tree → List Item × List Tree
  | [] => ([], lead)
  | t :: ts =>
    if t.isTrivia then itemsIn (lead ++ [t]) ts
    else let r := itemsIn [] ts; (⟨lead, t⟩ :: r.1, r.2)

/-- Children as items, and the trivia after the last of them. -/
def items (ts : List Tree) : List Item × List Tree := itemsIn [] ts

theorem itemsIn_flatten (lead ts : List Tree) :
    Item.flatten (itemsIn lead ts).1 ++ (itemsIn lead ts).2 = lead ++ ts := by
  induction ts generalizing lead with
  | nil => simp [itemsIn, Item.flatten]
  | cons t ts ih =>
    by_cases h : t.isTrivia
    · simp [itemsIn, h, ih]
    · have := ih []
      simp only [Item.flatten, List.nil_append] at this
      simp [itemsIn, h, Item.flatten, Item.trees, this]

theorem items_flatten (ts : List Tree) : Item.flatten (items ts).1 ++ (items ts).2 = ts := by
  simpa [items] using itemsIn_flatten [] ts

namespace Tree

/-- Whether a tree is the end of a line. -/
def isEndOfLine : Tree → Bool
  | .leaf l => l.kind = .endOfLine
  | .node _ _ => false

/-- Whether a tree is a line break that ends no statement. -/
def isLineBreak : Tree → Bool
  | .leaf l => l.kind = .lineBreak
  | .node _ _ => false

/-- The statements on a line. -/
def smallStatements (t : Tree) : List Tree :=
  t.parts.filter fun c => !c.isMark ";" && !c.isEndOfLine

/-- The only statement on a line, if the tree is a line with one statement. -/
def onlyStatement? (t : Tree) : Option Tree :=
  match t.isKind .simpleLine, t.smallStatements with
  | true, [s] => some s
  | _, _ => none

/-- Changes the last leaf of a tree. -/
def mapLast (f : Leaf → Leaf) : Tree → Tree :=
  para (fun l => .leaf (f l)) fun k ts =>
    match ts.getLast? with
    | none => .node k []
    | some t => .node k (ts.dropLast.map (·.1) ++ [t.2])

end Tree

end FluentShift.Source
