/-!
# FluentShift.Yaml.Node - what a YAML document says

A document is a tree of scalars, sequences and mappings.  A scalar is a text; what value it stands for is decided later,
by its tag or, if it is plain, by its looks.
-/

namespace FluentShift.Yaml

/-- A part of a document. -/
inductive Node where
  | scalar (tag : Option String) (text : String) (plain : Bool)
  | sequence (tag : Option String) (items : List Node)
  | mapping (tag : Option String) (entries : List (Node × Node))
  deriving Repr, Inhabited

namespace Node

/-- The part of a document where nothing is written. -/
def empty (tag : Option String) : Node := .scalar tag "" true

/-- The tag that says nothing. -/
def bareTag : String := "!"

/-- A part with a tag; under the tag that says nothing a scalar counts as plain. -/
def withTag (tag : String) : Node → Node
  | .scalar _ text _ => if tag = bareTag then .scalar none text true else .scalar (some tag) text false
  | .sequence _ items => .sequence (some tag |>.filter (· ≠ bareTag)) items
  | .mapping _ entries => .mapping (some tag |>.filter (· ≠ bareTag)) entries

end Node

end FluentShift.Yaml
