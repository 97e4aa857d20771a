import FluentShift.Source.Token

/-!
# FluentShift.Source.Grammar - grammars that build lossless trees

A `Grammar` is a value: ordered choice, sequence, repetition, lookahead and named rules, as in a parsing expression
grammar, with three ways to build nodes.

* `tree k g` makes a node of kind `k` of what `g` reads; the trivia in front stays outside.
* `graft head tail` reads `head` and then `tail`; if `tail` built a node, that node takes `head` as its first child.
  So `a + b` is read once, and becomes an operation only when the operator is there.
* `chain head tail` grafts as often as it can, which makes left-associative operators.

`Grammar.run` is the one interpreter.  It never drops or invents a leaf.
-/

namespace FluentShift.Source

/-- What a grammar asks of the next token. -/
inductive Want where
  /-- The keyword, operator or bracket `text`. -/
  | mark (text : String)
  /-- A name that acts as a keyword here; it becomes a mark. -/
  | soft (text : String)
  /-- A name that can be bound. -/
  | name
  /-- One of the names with a fixed value. -/
  | constant
  /-- Any name, as a letter without a meaning of its own; it becomes a mark. -/
  | letter
  /-- A leaf of the given kind. -/
  | kind (k : LeafKind)
  | indent
  | dedent
  | done
  deriving DecidableEq, Repr

/-- The leaf that a wanted token becomes, or nothing if the token is not the wanted one. -/
def Want.accept (w : Want) (body : TokenBody) : Option (List Leaf) :=
  match w, body with
  | .mark s, .leaf l => if l.kind = .mark && l.text = s then some [l] else none
  | .soft s, .leaf l => if l.kind = .name && l.text = s then some [⟨.mark, l.text⟩] else none
  | .name, .leaf l => if l.kind = .name && !constantNames.contains l.text then some [l] else none
  | .constant, .leaf l => if l.kind = .name && constantNames.contains l.text then some [l] else none
  | .letter, .leaf l => if l.kind = .name then some [⟨.mark, l.text⟩] else none
  | .kind k, .leaf l => if l.kind = k then some [l] else none
  | .indent, .indent => some []
  | .dedent, .dedent => some []
  | .done, .done => some []
  | _, _ => none

/-- A grammar over the rule names `R`. -/
inductive Grammar (R : Type) where
  | nothing
  | want (w : Want)
  | seq (a b : Grammar R)
  | alt (a b : Grammar R)
  | many (a : Grammar R)
  | ahead (a : Grammar R)
  | notAhead (a : Grammar R)
  | rule (r : R)
  | tree (k : Kind) (a : Grammar R)
  | graft (head tail : Grammar R)
  | chain (head tail : Grammar R)
  | check (ok : List Tree → Bool) (a : Grammar R)

/-! ### Building nodes -/

/-- Makes a node of the trees after the leading trivia. -/
def wrap (k : Kind) (ts : List Tree) : List Tree :=
  ts.takeWhile Tree.isTrivia ++ [.node k (ts.dropWhile Tree.isTrivia)]

/-- Puts the trees of `head` in front of the children of the node that `tail` ends with; if `tail` is empty or ends
with a leaf, the two stand side by side. -/
def join (head tail : List Tree) : List Tree :=
  match tail.getLast? with
  | some (.node k ts) => wrap k (head ++ tail.dropLast ++ ts)
  | _ => head ++ tail

/-! ### Running a grammar -/

namespace Grammar

variable {R : Type}

/-- Reads tokens by a grammar; none when they do not fit or the fuel is spent. -/
def run (rules : R → Grammar R) : Nat → Grammar R → List Token → Option (List Tree × List Token)
  | 0, _, _ => none
  | fuel + 1, g, ts =>
    match g with
    | .nothing => some ([], ts)
    | .want w =>
      match ts with
      | [] => none
      | t :: rest => (w.accept t.body).map fun ls => ((t.lead ++ ls).map .leaf, rest)
    | .seq a b =>
      match run rules fuel a ts with
      | none => none
      | some (xs, ts) =>
        match run rules fuel b ts with
        | none => none
        | some (ys, ts) => some (xs ++ ys, ts)
    | .alt a b =>
      match run rules fuel a ts with
      | some r => some r
      | none => run rules fuel b ts
    | .many a =>
      match run rules fuel a ts with
      | none => some ([], ts)
      | some (xs, us) =>
        if us.length < ts.length then
          match run rules fuel (.many a) us with
          | none => none
          | some (ys, vs) => some (xs ++ ys, vs)
        else some ([], ts)
    | .ahead a => if (run rules fuel a ts).isSome then some ([], ts) else none
    | .notAhead a => if (run rules fuel a ts).isSome then none else some ([], ts)
    | .rule r => run rules fuel (rules r) ts
    | .tree k a => (run rules fuel a ts).map fun r => (wrap k r.1, r.2)
    | .graft a b =>
      match run rules fuel a ts with
      | none => none
      | some (xs, ts) => (run rules fuel b ts).map fun r => (join xs r.1, r.2)
    | .chain a b =>
      match run rules fuel a ts with
      | none => none
      | some (xs, ts) => runChain rules fuel b xs ts
    | .check ok a =>
      match run rules fuel a ts with
      | none => none
      | some r => if ok (r.1.filter (!·.isTrivia)) then some r else none
where
  /-- Grafts `tail` onto the trees read so far, as often as it fits. -/
  runChain (rules : R → Grammar R) : Nat → Grammar R → List Tree → List Token → Option (List Tree × List Token)
    | 0, _, _, _ => none
    | fuel + 1, tail, xs, ts =>
      match run rules fuel tail ts with
      | none => some (xs, ts)
      | some (ys, us) =>
        if us.length < ts.length then runChain rules fuel tail (join xs ys) us else some (xs, ts)

/-! ### Derived forms -/

/-- Reads by `a` if it fits. -/
def opt (a : Grammar R) : Grammar R := .alt a .nothing

/-- Reads the grammars one after the other. -/
def all : List (Grammar R) → Grammar R
  | [] => .nothing
  | [g] => g
  | g :: gs => .seq g (all gs)

/-- Reads by the first grammar that fits. -/
def any : List (Grammar R) → Grammar R
  | [] => .notAhead .nothing
  | [g] => g
  | g :: gs => .alt g (any gs)

/-- Reads by `a` at least once. -/
def some_ (a : Grammar R) : Grammar R := .seq a (.many a)

/-- Reads the mark `s`. -/
def tok (s : String) : Grammar R := .want (.mark s)

/-- Reads one of the marks. -/
def oneOf (ss : List String) : Grammar R := any (ss.map tok)

/-- Reads items with `sep` between them. -/
def sepBy (item sep : Grammar R) : Grammar R := .seq item (.many (.seq sep item))

/-- Reads items with commas between them and perhaps after the last. -/
def commas (item : Grammar R) : Grammar R := .seq (sepBy item (tok ",")) (opt (tok ","))

end Grammar

end FluentShift.Source
