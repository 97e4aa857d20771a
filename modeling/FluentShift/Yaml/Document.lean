import FluentShift.Yaml.Text

/-!
# FluentShift.Yaml.Document - from text to document

Blocks are sequences and mappings whose parts start in one column; flow collections have brackets around them, and may
stand wherever a scalar may.  `readDocument` reads a text with at most one document.
-/

namespace FluentShift.Yaml

/-! ### Properties -/

/-- What stands before a node: its tag and its name. -/
structure Properties where
  tag : Option String
  name : Option String
  deriving Repr, Inhabited

/-- Whether a character can stand in a name. -/
def isNameChar (c : Char) : Bool := c.isAlphanum || c = '-' || c = '_'

/-- Reads a name after its mark. -/
def readName : Read String := do
  let cs ← Read.word isNameChar
  let rest := (← Read.here).rest
  let ended := gapFollows rest || (rest.head?.map "?:,]\x7d%@\x60".toList.contains).getD false
  if cs.isEmpty || !ended then failure
  return String.ofList cs

/-- What the tags of the language itself start with. -/
def coreTag : String := "tag:yaml.org,2002:"

/-- The tag that is meant by what is written. -/
def meantTag? (written : List Char) : Option String :=
  match written with
  | '!' :: '!' :: cs => if cs.isEmpty then none else some (coreTag ++ String.ofList cs)
  | '!' :: '<' :: cs => if cs.getLast? = some '>' then some (String.ofList cs.dropLast) else none
  | cs => some (String.ofList cs)

/-- Reads a tag. -/
def readTag : Read String := do
  match meantTag? (← Read.word (!isGap ·)) with
  | some tag => return tag
  | none => failure

/-- Reads what stands before a node, and moves on to the node. -/
def readProperties : Nat → Properties → Read Properties
  | 0, p => return p
  | n + 1, p => do
    match (← Read.here).rest with
    | '!' :: _ =>
      let tag ← readTag
      Read.skipGap
      readProperties n { p with tag := some tag }
    | '&' :: _ =>
      Read.skip 1
      let name ← readName
      Read.skipGap
      readProperties n { p with name := some name }
    | _ => return p

/-- Gives a node its properties; a name is given once. -/
def finish (p : Properties) (node : Node) : Read Node := do
  let node := (p.tag.map node.withTag).getD node
  match p.name with
  | none => return node
  | some name =>
    if ((← Read.here).named.lookup name).isSome then failure
    modify fun k => { k with named := (name, node) :: k.named }
    return node

/-- Reads a reference to a node with a name. -/
def readReference : Read Node := do
  let name ← readName
  match (← Read.here).named.lookup name with
  | some node => return node
  | none => failure

/-! ### Flow -/

mutual

/-- Reads a node that may stand in one line. -/
def readInline (flow : Bool) (outer : Int) : Nat → Read Node
  | 0 => failure
  | fuel + 1 => do
    if (← Read.peek) = '*' then
      Read.skip 1
      readReference
    else
      let p ← readProperties 2 ⟨none, none⟩
      match ← Read.attempt (readBare flow outer fuel) with
      | some node => finish p node
      | none => if p.tag.isSome || p.name.isSome then finish p (.empty none) else failure

/-- Reads a node that may stand in one line, without properties. -/
def readBare (flow : Bool) (outer : Int) : Nat → Read Node
  | 0 => failure
  | fuel + 1 => do
    match (← Read.here).rest with
    | '[' :: _ =>
      Read.skip 1
      return .sequence none (← readFlowItems fuel)
    | '\x7b' :: _ =>
      Read.skip 1
      return .mapping none (← readFlowEntries fuel)
    | '"' :: _ =>
      Read.skip 1
      return .scalar none (String.ofList (← readQuoted '"' (← Read.fuel))) false
    | '\'' :: _ =>
      Read.skip 1
      return .scalar none (String.ofList (← readQuoted '\'' (← Read.fuel))) false
    | cs =>
      if startsPlain flow cs then
        return .scalar none (String.ofList (← readPlain flow (outer + 1) (← Read.fuel))) true
      else failure

/-- Reads the items of a sequence up to its closing bracket. -/
def readFlowItems : Nat → Read (List Node)
  | 0 => failure
  | fuel + 1 => do
    Read.skipGap
    if (← Read.peek) = ']' then
      Read.skip 1
      return []
    else
      let pair := (← Read.here).isAtMark '?'
      if pair then
        Read.skip 1
        Read.skipGap
      let start := (← Read.here).line
      let key ← readInline true 0 fuel
      let ended := (← Read.here).line
      Read.skipGap
      let item ←
        -- an item with a colon is a mapping of its own; without a question mark its key stays on one line
        if (← Read.peek) = ':' && (pair || start = ended) then do
          Read.skip 1
          pure (Node.mapping none [(key, ← readFlowValue fuel)])
        else pure (if pair then .mapping none [(key, .empty none)] else key)
      Read.skipGap
      if (← Read.peek) = ',' then
        Read.skip 1
        return item :: (← readFlowItems fuel)
      else
        Read.expect ']'
        return [item]

/-- Reads the entries of a mapping up to its closing brace. -/
def readFlowEntries : Nat → Read (List (Node × Node))
  | 0 => failure
  | fuel + 1 => do
    Read.skipGap
    if (← Read.peek) = '\x7d' then
      Read.skip 1
      return []
    else
      if (← Read.here).isAtMark '?' then
        Read.skip 1
        Read.skipGap
      let key ← readInline true 0 fuel
      Read.skipGap
      let value ←
        if (← Read.peek) = ':' then do
          Read.skip 1
          readFlowValue fuel
        else pure (.empty none)
      Read.skipGap
      if (← Read.peek) = ',' then
        Read.skip 1
        return (key, value) :: (← readFlowEntries fuel)
      else
        Read.expect '\x7d'
        return [(key, value)]

/-- Reads the value of a key, which may be missing. -/
def readFlowValue : Nat → Read Node
  | 0 => failure
  | fuel + 1 => do
    Read.skipGap
    if [',', ']', '\x7d'].contains (← Read.peek) then return .empty none
    else readInline true 0 fuel

end

/-! ### Blocks -/

/-- Reads a key with its colon; it stands in one line. -/
def readKey (outer : Int) (fuel : Nat) : Read Node := do
  let start := (← Read.here).line
  let key ← readInline false outer fuel
  if (← Read.here).line ≠ start then failure
  Read.skipBlanks
  if !(← Read.here).isAtMark ':' then failure
  Read.skip 1
  return key

/-- Reads a scalar or a flow collection, without properties. -/
def readPart (outer : Int) (fuel : Nat) : Read Node := do
  match (← Read.here).rest with
  | '|' :: _ =>
    Read.skip 1
    return .scalar none (String.ofList (← readBlock false outer)) false
  | '>' :: _ =>
    Read.skip 1
    return .scalar none (String.ofList (← readBlock true outer)) false
  | _ => readBare false outer fuel

mutual

/-- Reads a node inside a block that starts in column `outer`; `opens` says whether a block may start here, and
`beside` where the items of a sequence may stand that is the value of a key. -/
def readNode (outer : Int) (opens : Bool) (beside : Option Nat) : Nat → Read Node
  | 0 => failure
  | fuel + 1 => do
    let k ← Read.here
    if k.isAtEnd then return .empty none
    if opens && k.isAtMark '-' then return .sequence none (← readItems k.column fuel)
    if opens && k.isAtMark '?' then return .mapping none (← readEntries k.column fuel)
    let key ← if opens then Read.attempt (readKey outer fuel) else pure none
    match key with
    | some key =>
      let value ← readValue k.column false fuel
      Read.skipGap
      return .mapping none ((key, value) :: (← readEntries k.column fuel))
    | none =>
      if (← Read.peek) = '*' then
        Read.skip 1
        readReference
      else
        let p ← readProperties 2 ⟨none, none⟩
        let k' ← Read.here
        -- what has properties may stand below them
        let node ← if k'.line = k.line && !k'.rest.isEmpty then readPart outer fuel else readBelow outer beside fuel
        finish p node
termination_by structural fuel => fuel

/-- Reads a node at the start of a line. -/
def readBelow (outer : Int) (beside : Option Nat) : Nat → Read Node
  | 0 => failure
  | fuel + 1 => do
    let k ← Read.here
    if k.isAtEnd then return .empty none
    if outer < k.column then readNode outer true none fuel
    -- a sequence may stand right below its key
    else if beside = some k.column && k.isAtMark '-' then return .sequence none (← readItems k.column fuel)
    else return .empty none
termination_by structural fuel => fuel

/-- Reads what stands after the mark of an item, a key or a value in a block that starts in column `column`. -/
def readAfterMark (column : Nat) (opens : Bool) (beside : Option Nat) : Nat → Read Node
  | 0 => failure
  | fuel + 1 => do
    let line := (← Read.here).line
    Read.skipGap
    if (← Read.here).line = line then readNode column opens beside fuel else readBelow column beside fuel
termination_by structural fuel => fuel

/-- Reads the value of a key. -/
def readValue (column : Nat) (opens : Bool) : Nat → Read Node
  | 0 => failure
  | fuel + 1 => readAfterMark column opens (some column) fuel
termination_by structural fuel => fuel

/-- Reads the items of a sequence. -/
def readItems (column : Nat) : Nat → Read (List Node)
  | 0 => failure
  | fuel + 1 => do
    let k ← Read.here
    if k.isAtEnd || k.column < column then return []
    if k.column ≠ column then failure
    if !k.isAtMark '-' then return []
    Read.skip 1
    let item ← readAfterMark column true none fuel
    Read.skipGap
    return item :: (← readItems column fuel)
termination_by structural fuel => fuel

/-- Reads the entries of a mapping. -/
def readEntries (column : Nat) : Nat → Read (List (Node × Node))
  | 0 => failure
  | fuel + 1 => do
    let k ← Read.here
    if k.isAtEnd || k.column < column then return []
    if k.column ≠ column then failure
    let entry ←
      if k.isAtMark '?' then do
        Read.skip 1
        let key ← readValue column true fuel
        Read.skipGap
        let k' ← Read.here
        if !k'.isAtEnd && k'.column = column && k'.isAtMark ':' then
          Read.skip 1
          pure (key, ← readValue column true fuel)
        else pure (key, .empty none)
      else do
        let key ← readKey column fuel
        pure (key, ← readValue column false fuel)
    Read.skipGap
    return entry :: (← readEntries column fuel)
termination_by structural fuel => fuel

end

/-! ### Documents -/

/-- Reads directives; gives whether there were any. -/
def readDirectives : Nat → Read Bool
  | 0 => return false
  | fuel + 1 => do
    let k ← Read.here
    if k.column = 0 && k.rest.head? = some '%' then
      let _ ← Read.word (!isBreak ·)
      Read.skipGap
      let _ ← readDirectives fuel
      return true
    else return false

/-- Whether a place is at three hyphens that start a document. -/
def Cursor.isAtStart (k : Cursor) : Bool := k.isAtMarker && k.rest.head? = some '-'

/-- Moves on over lines that end a document. -/
def skipEnds : Nat → Read Unit
  | 0 => return ()
  | fuel + 1 => do
    let k ← Read.here
    if k.isAtMarker && !k.isAtStart then
      Read.skip 3
      Read.skipGap
      skipEnds fuel

/-- Reads the one document of a text; a text without a document has an empty one. -/
def readWhole (fuel : Nat) : Read Node := do
  if (← Read.here).rest.head? = some '\ufeff' then modify fun k => { k with rest := k.rest.drop 1 }
  Read.skipGap
  let directed ← readDirectives fuel
  let k ← Read.here
  let started := k.isAtStart
  -- directives need the three hyphens after them
  if !started && (directed || k.isAtMarker) then failure
  if started then Read.skip 3
  Read.skipGap
  -- behind the hyphens, in the same line, no block may start
  let opens := !started || (← Read.here).line ≠ k.line
  let node ← readNode (-1) opens none fuel
  Read.skipGap
  skipEnds fuel
  if (← Read.here).rest.isEmpty then return node else failure

/-- Reads a text with at most one document. -/
def readDocument (text : String) : Except Fault Node :=
  let cs := text.toList
  if cs.all isPrintable then ((readWhole (8 * (cs.length + 2))).run ⟨cs, 0, 0, []⟩).map (·.1) else .error .malformed

end FluentShift.Yaml
