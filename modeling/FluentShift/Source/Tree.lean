/-!
# FluentShift.Source.Tree - source text as a lossless tree

A file is a `Tree` whose leaves are the pieces of its text, blanks and comments included, in order.  Printing is
concatenation (`Tree.text`), so two trees with the same leaves print alike, and replacing a subtree changes the
text of that subtree and of nothing else.

* Trivia (blanks, comments, line breaks that end no statement) never starts a node, so the text of an expression
  node is the expression and not the space before it.
* Parentheses around an expression are a node of their own (`Kind.paren`).
* A node is named by its `Path`, the child indices from the root, innermost first.
* `Tree.para` is the only recursion scheme the analyses use: every analysis is an algebra on one node and the
  results of its children.
-/

namespace FluentShift.Source

/-! ### Leaves -/

/-- What a piece of text is. -/
inductive LeafKind where
  | blank
  | comment
  | lineBreak
  | joint
  | endOfLine
  | name
  | integer
  | real
  | imaginary
  | string
  | templateOpen
  | fragment
  | templateClose
  | mark
  deriving DecidableEq, Repr, Inhabited

/-- Trivia carries no meaning: blanks, comments, line breaks inside brackets or on empty lines, and the backslash
with the line break it hides (`joint`). -/
def LeafKind.isTrivia : LeafKind → Bool
  | .blank | .comment | .lineBreak | .joint => true
  | _ => false

/-- One piece of text. -/
structure Leaf where
  kind : LeafKind
  text : String
  deriving DecidableEq, Repr, Inhabited

/-! ### Nodes -/

/-- The constructs of the language that an analysis tells apart. -/
inductive Kind where
  | module | simpleLine | suite | block
  | assign | annAssign | augAssign | returnStmt | raiseStmt | delStmt | assertStmt | globalStmt | nonlocalStmt
  | importStmt | importFrom | importAlias | dotted | typeAlias
  | ifStmt | whileStmt | forStmt | withStmt | withItem | tryStmt | handler | finallyClause | elseClause
  | funcDef | classDef | decorator | params | param | starParam | dictParam | hint | returns
  | typeParams | typeParam | matchStmt | caseClause | guard | pattern
  | paren | tuple | list | brace | dictItem | doubleStarred | starred | generator | compFor | compIf
  | lambda | ifExp | boolOp | unaryOp | comparison | binaryOp | awaitExpr | yieldExpr | walrus
  | attribute | subscript | slice | call | argument | concatenation | template | field
  deriving DecidableEq, Repr, Inhabited

/-- A lossless tree. -/
inductive Tree where
  | leaf (l : Leaf)
  | node (kind : Kind) (children : List Tree)
  deriving Inhabited, Repr

namespace Tree

mutual

/-- The text of a tree is the text of its leaves. -/
def text : Tree → String
  | .leaf l => l.text
  | .node _ ts => textAll ts

/-- The text of several trees in a row. -/
def textAll : List Tree → String
  | [] => ""
  | t :: ts => t.text ++ textAll ts

end

mutual

/-- The leaves of a tree from left to right. -/
def leaves : Tree → List Leaf
  | .leaf l => [l]
  | .node _ ts => leavesAll ts

/-- The leaves of several trees in a row. -/
def leavesAll : List Tree → List Leaf
  | [] => []
  | t :: ts => t.leaves ++ leavesAll ts

end

section Para

variable {α : Type}

mutual

/-- Recursion over a tree: `leaf` answers for a leaf, `node` for a node from its children and their answers. -/
def para (leaf : Leaf → α) (node : Kind → List (Tree × α) → α) : Tree → α
  | .leaf l => leaf l
  | .node k ts => node k (paraAll leaf node ts)

/-- The children of a node beside their answers. -/
def paraAll (leaf : Leaf → α) (node : Kind → List (Tree × α) → α) : List Tree → List (Tree × α)
  | [] => []
  | t :: ts => (t, t.para leaf node) :: paraAll leaf node ts

end

end Para

/-! ### Looking at a tree -/

/-- The kind of a node; leaves have none. -/
def kind? : Tree → Option Kind
  | .leaf _ => none
  | .node k _ => some k

/-- The children of a node. -/
def children : Tree → List Tree
  | .leaf _ => []
  | .node _ ts => ts

/-- Whether the tree is a node of kind `k`. -/
def isKind (k : Kind) (t : Tree) : Bool :=
  t.kind? = some k

/-- Whether the tree is one piece of trivia. -/
def isTrivia : Tree → Bool
  | .leaf l => l.kind.isTrivia
  | .node _ _ => false

/-- Whether the tree is a comment. -/
def isComment : Tree → Bool
  | .leaf l => l.kind = .comment
  | .node _ _ => false

/-- Whether the tree is the keyword, operator or bracket `s`. -/
def isMark (s : String) : Tree → Bool
  | .leaf l => l.kind = .mark && l.text = s
  | .node _ _ => false

/-- The text of a name leaf. -/
def name? : Tree → Option String
  | .leaf l => if l.kind = .name then some l.text else none
  | .node _ _ => none

/-- The children that are not trivia. -/
def parts (t : Tree) : List Tree :=
  t.children.filter (!·.isTrivia)

/-- Whether some child of the tree is a node of kind `k`. -/
def hasDirect (k : Kind) (t : Tree) : Bool :=
  t.children.any (·.isKind k)

/-- Whether some node of the tree has kind `k`. -/
def hasKind (k : Kind) : Tree → Bool :=
  para (fun _ => false) fun k' ts => k' = k || ts.any (·.2)

/-- The expression inside any number of parentheses; an empty pair of parentheses stays as it is. -/
def unparen : Tree → Tree :=
  let inner : Kind → List (Tree × Tree) → Tree := fun k ts =>
    match k, ts.filter (fun t => !t.1.isTrivia) with
    | .paren, [_, e, _] => e.2
    | _, _ => .node k (ts.map (·.1))
  para .leaf inner

/-- Changes the expression inside any number of parentheses, which stay. -/
def mapInner (f : Tree → Tree) : Tree → Tree :=
  let node : Kind → List (Tree × Tree) → Tree := fun k ts =>
    match k, ts.filter (fun t => !t.1.isTrivia) with
    | .paren, [_, _, _] => .node k (ts.map fun t => if t.1.isTrivia || t.1.isMark "(" || t.1.isMark ")" then t.1 else t.2)
    | _, _ => f (.node k (ts.map (·.1)))
  para (fun l => f (.leaf l)) node

@[simp] theorem textAll_nil : textAll [] = "" := rfl

@[simp] theorem textAll_cons (t : Tree) (ts : List Tree) : textAll (t :: ts) = t.text ++ textAll ts := rfl

@[simp] theorem text_leaf (l : Leaf) : (leaf l).text = l.text := rfl

@[simp] theorem text_node (k : Kind) (ts : List Tree) : (node k ts).text = textAll ts := rfl

theorem textAll_append (ts us : List Tree) : textAll (ts ++ us) = textAll ts ++ textAll us := by
  induction ts with
  | nil => simp
  | cons t ts ih => simp [ih, String.append_assoc]

end Tree

/-! ### Paths -/

/-- The child indices that lead from the root to a node, the last step first. -/
abbrev Path := List Nat

namespace Tree

/-- Pairs every child with its path below `p`. -/
def locate {α : Type} (p : Path) (ts : List α) : List (Path × α) :=
  ts.zipIdx.map fun t => (t.2 :: p, t.1)

/-- The nodes whose kind satisfies `p` with their paths, each before the nodes inside it, from left to right. -/
def nodesWhere (wanted : Kind → Bool) (t : Tree) : List (Path × Tree) :=
  let leaf : Leaf → Path → List (Path × Tree) := fun _ _ => []
  let node : Kind → List (Tree × (Path → List (Path × Tree))) → Path → List (Path × Tree) := fun k ts p =>
    (if wanted k then [(p, .node k (ts.map (·.1)))] else []) ++
      (locate p ts).flatMap fun c => c.2.2 c.1
  t.para leaf node []

/-- The nodes of kind `k` with their paths. -/
def nodesOf (k : Kind) (t : Tree) : List (Path × Tree) :=
  t.nodesWhere (· = k)

end Tree

/-! ### Positions -/

/-- A place in a text: lines count from 1, columns count characters from 0. -/
structure Location where
  line : Nat
  column : Nat
  deriving DecidableEq, Repr, Inhabited

namespace Location

/-- The first place of a text. -/
def start : Location := ⟨1, 0⟩

/-- The place after reading characters from a place; a carriage return with the line feed after it is one break. -/
def advance (l : Location) : List Char → Location
  | [] => l
  | '\r' :: '\n' :: cs => advance ⟨l.line + 1, 0⟩ cs
  | '\r' :: cs => advance ⟨l.line + 1, 0⟩ cs
  | '\n' :: cs => advance ⟨l.line + 1, 0⟩ cs
  | _ :: cs => advance ⟨l.line, l.column + 1⟩ cs

/-- The place written as `line:column`. -/
def describe (l : Location) : String :=
  toString l.line ++ ":" ++ toString l.column

end Location

namespace Tree

/-- The starting places of the nodes of kind `k`, beside their paths, in the order of `nodesOf`. -/
def startsOf (k : Kind) (t : Tree) : List (Path × Location) :=
  let leaf : Leaf → Path → Location → List (Path × Location) × Location := fun l _ at_ =>
    ([], at_.advance l.text.toList)
  let node : Kind → List (Tree × (Path → Location → List (Path × Location) × Location)) → Path → Location →
      List (Path × Location) × Location := fun k' ts p at_ =>
    let own := if k' = k then [(p, at_)] else []
    (locate p ts).foldl (fun acc c => let r := c.2.2 c.1 acc.2; (acc.1 ++ r.1, r.2)) (own, at_)
  (t.para leaf node [] .start).1

end Tree

end FluentShift.Source
