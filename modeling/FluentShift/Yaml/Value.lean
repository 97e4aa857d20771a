import FluentShift.Yaml.Document
import FluentShift.Yaml.Scalar

/-!
# FluentShift.Yaml.Value - the value of a document

`read` gives the plain data that a text stands for.  A mapping can take over the entries of others under the key `<<`;
its own entries are laid over them.
-/

namespace FluentShift.Yaml

/-! ### Scalars -/

/-- The six bits that a character of binary data stands for. -/
def sextet? (c : Char) : Option Nat :=
  if 'A' ≤ c && c ≤ 'Z' then some (c.toNat - 65)
  else if 'a' ≤ c && c ≤ 'z' then some (c.toNat - 71)
  else if c.isDigit then some (c.toNat + 4)
  else if c = '+' then some 62
  else if c = '/' then some 63
  else none

/-- The bytes that up to four groups of six bits make. -/
def bytesOf : List Nat → List UInt8
  | a :: b :: rest =>
    let first := UInt8.ofNat (a * 4 + b / 16)
    match rest with
    | [] => [first]
    | [c] => [first, UInt8.ofNat (b % 16 * 16 + c / 4)]
    | c :: d :: _ => [first, UInt8.ofNat (b % 16 * 16 + c / 4), UInt8.ofNat (c % 4 * 64 + d)]
  | _ => []

/-- Reads binary data: `held` are the groups that make no bytes yet, and `pads` counts the equals signs after them.  Other
characters are passed over. -/
def binary? (held : List Nat) (pads : Nat) : List Char → Option (List UInt8)
  | [] => if held.isEmpty then some [] else none
  | c :: cs =>
    if c = '=' then
      if held.length < 2 then binary? held pads cs
      else if 3 ≤ held.length + pads then some (bytesOf held)
      else binary? held (pads + 1) cs
    else
      match sextet? c with
      | none => binary? held pads cs
      | some n =>
        if held.length = 3 then (binary? [] 0 cs).map (bytesOf (held ++ [n]) ++ ·) else binary? (held ++ [n]) 0 cs

/-- The value of binary data. -/
def binaryValue (text : String) : Except Fault Value :=
  match if text.toList.all (·.toNat < 128) then binary? [] 0 text.toList else none with
  | some b => .ok (.bytes b)
  | none => .error .malformed

/-- The value of a scalar with a tag. -/
def taggedValue (tag text : String) : Except Fault Value :=
  match tag.dropPrefix? coreTag with
  | none => .error .malformed
  | some kind =>
    match kind.toString with
    | "str" => .ok (.text text)
    | "null" => .ok .null
    | "bool" =>
      match switchWord? text with
      | some b => .ok (.bool b)
      | none => noValue .key text
    | "int" => wholeNumber text
    | "float" => realNumber text
    | "timestamp" => moment text
    | "binary" => binaryValue text
    | _ => .error .malformed

/-- The value of a scalar. -/
def scalarValue (tag : Option String) (text : String) (plain : Bool) : Except Fault Value :=
  match tag with
  | some t => taggedValue t text
  | none => if plain then plainValue text else .ok (.text text)

/-- Whether a part of a document is a plain scalar of this text. -/
def Node.isPlain (text : String) : Node → Bool
  | .scalar none t true => t = text
  | _ => false

/-- Whether a part of a document is a collection; those are no keys. -/
def Node.isCollection : Node → Bool
  | .scalar .. => false
  | .sequence .. | .mapping .. => true

/-! ### Mappings -/

/-- Entries with one more: in the place of the same key, or at the end. -/
def putEntry (es : List (Value × Value)) (key value : Value) : List (Value × Value) :=
  if es.any fun e => e.1.same key then es.map fun e => if e.1.same key then (e.1, value) else e else es ++ [(key, value)]

/-- Entries of which later ones take the place of earlier ones. -/
def layered (es : List (Value × Value)) : List (Value × Value) :=
  es.foldl (fun es e => putEntry es e.1 e.2) []

/-- Whether the tag of a collection is its own. -/
def isOwnTag (kind : String) (tag : Option String) : Bool :=
  match tag with
  | none => true
  | some t => t = coreTag ++ kind

/-! ### Parts and their depth -/

/-- A value, or a fault and how deep it lies: the parts of a collection are read before those of the collections in it. -/
abbrev Built (α : Type) := Except (Nat × Fault) α

/-- Two parts, or the fault that is found first. -/
def Built.and {α β : Type} (a : Built α) (b : Built β) : Built (α × β) :=
  match a, b with
  | .ok x, .ok y => .ok (x, y)
  | .error e, .ok _ => .error e
  | .ok _, .error f => .error f
  | .error e, .error f => .error (if f.1 < e.1 then f else e)

/-- The entries of a mapping: those it takes over, its own, and whether what stands under the key `<<` can be taken over,
which is looked at before any entry is read. -/
structure Entries where
  taken : Built (List (Value × Value))
  own : Built (List (Value × Value))
  clean : Bool

/-- All entries at a depth, those that are taken over first. -/
def Entries.all (depth : Nat) (es : Entries) : Built (List (Value × Value)) :=
  if es.clean then (es.taken.and es.own).map fun e => e.1 ++ e.2 else .error (depth, .malformed)

mutual

/-- The value of a part of a document at a depth. -/
def nodeValue (depth : Nat) : Node → Built Value
  | .scalar tag text plain => (scalarValue tag text plain).mapError fun f => (depth, f)
  | .sequence tag items =>
    if isOwnTag "seq" tag then (nodeValues (depth + 1) items).map .list else .error (depth, .malformed)
  | .mapping tag entries =>
    if isOwnTag "map" tag then ((entryValues (depth + 1) entries).all (depth + 1)).map fun es => .mapping (layered es)
    else .error (depth, .malformed)

/-- The values of the items of a sequence. -/
def nodeValues (depth : Nat) : List Node → Built (List Value)
  | [] => .ok []
  | n :: ns => ((nodeValue depth n).and (nodeValues depth ns)).map fun v => v.1 :: v.2

/-- The entries of a mapping. -/
def entryValues (depth : Nat) : List (Node × Node) → Entries
  | [] => ⟨.ok [], .ok [], true⟩
  | (key, value) :: es =>
    let others := entryValues depth es
    if key.isPlain "<<" then
      let taken := takenValues depth value
      ⟨(taken.own.and others.taken).map fun e => e.1 ++ e.2, others.own, taken.clean && others.clean⟩
    else
      let key : Built Value :=
        if key.isCollection then .error (depth, .malformed)
        else if key.isPlain "=" then .ok (.text "=")
        else nodeValue depth key
      ⟨others.taken, ((key.and (nodeValue depth value)).and others.own).map fun e => e.1 :: e.2, others.clean⟩

/-- The entries of what stands under the key `<<`: a mapping, or a sequence of them of which the first counts most. -/
def takenValues (depth : Nat) : Node → Entries
  | .scalar .. => ⟨.ok [], .ok [], false⟩
  | .mapping _ entries =>
    let es := entryValues depth entries
    ⟨.ok [], (es.taken.and es.own).map fun e => e.1 ++ e.2, es.clean⟩
  | .sequence _ items => takenFromAll depth items

/-- The entries of mappings, those of the last one first. -/
def takenFromAll (depth : Nat) : List Node → Entries
  | [] => ⟨.ok [], .ok [], true⟩
  | .mapping _ entries :: ns =>
    let es := entryValues depth entries
    let others := takenFromAll depth ns
    ⟨.ok [], (others.own.and (es.taken.and es.own)).map fun e => e.1 ++ (e.2.1 ++ e.2.2), es.clean && others.clean⟩
  | _ :: _ => ⟨.ok [], .ok [], false⟩

end

/-! ### Texts -/

/-- The value of a text with at most one document. -/
def read (text : String) : Except Fault Value := do
  let node ← readDocument text
  (nodeValue 0 node).mapError (·.2)

end FluentShift.Yaml
