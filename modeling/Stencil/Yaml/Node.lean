import Stencil.Yaml.Layout

/-! # Nodes

The tree of a YAML document.  `Node.ofTokens?` builds it from the tokens; a tag is written out in
full.

An anchor gives a node a number, which is the count of names that were known before it.  A name that
is given again gets a number again, and the next new name shares it.  An alias holds the number that
its name has where it is written, and stands for the last node of the whole document with this
number: `Document.follow` finds it.

The tree is built by recursive descent with a bound on the number of calls.  Every call but a fixed
number per token consumes one, so the bound that `document` gives is never reached.
-/

namespace Stencil.Yaml

/-- What can stand in front of a node: the number of its anchor, and its tag. -/
structure Properties where
  anchor? : Option Nat
  tag? : Option Tag
deriving DecidableEq, Repr

/-- A node without anchor and tag. -/
def Properties.none : Properties := ⟨Option.none, Option.none⟩

/-- A node, or an alias with the number of the node that it stands for. -/
inductive Node where
  | scalar (properties : Properties) (style : Style) (text : List Char)
  | sequence (properties : Properties) (items : List Node)
  | mapping (properties : Properties) (entries : List (Node × Node))
  | alias (number : Nat)

namespace Node

/-- The node of a place where nothing is written. -/
def empty : Node := .scalar .none .plain []

/-- A node with its number, if it has one. -/
def numbered (properties : Properties) (node : Node) : List (Nat × Node) :=
  properties.anchor?.toList.map fun number => (number, node)

mutual

/-- The numbered nodes of a tree, in reading order. -/
def anchored : Node → List (Nat × Node)
  | .scalar properties style text => numbered properties (.scalar properties style text)
  | .sequence properties items =>
    numbered properties (.sequence properties items) ++ anchoredItems items
  | .mapping properties entries =>
    numbered properties (.mapping properties entries) ++ anchoredEntries entries
  | .alias _ => []

/-- The numbered nodes of the items of a sequence. -/
def anchoredItems : List Node → List (Nat × Node)
  | [] => []
  | item :: items => anchored item ++ anchoredItems items

/-- The numbered nodes of the entries of a mapping. -/
def anchoredEntries : List (Node × Node) → List (Nat × Node)
  | [] => []
  | (key, value) :: entries => anchored key ++ anchored value ++ anchoredEntries entries

end

/-- The tokens left to read, and the numbers of the names that are known. -/
structure Reading where
  tokens : List Token
  names : List (List Char × Nat)

/-- A step that reads tokens. -/
abbrev Reader := StateT Reading (Except Error)

/-- The next token. -/
def peek : Reader Token := do return ((← get).tokens.head?).getD .streamEnd

/-- Drops the next token. -/
def drop : Reader Unit := modify fun r => { r with tokens := r.tokens.drop 1 }

/-- Numbers a name: its number is the count of known names. -/
def numberName (name : List Char) : Reader Nat := do
  let names := (← get).names
  let others := names.filter fun known => known.1 != name
  modify fun r => { r with names := (name, names.length) :: others }
  return names.length

/-- The number of a known name. -/
def resolve (name : List Char) : Reader Nat := do
  match (← get).names.lookup name with
  | some known => return known
  | none => throw .unknownAlias

/-- The text that each tag handle stands for. -/
abbrev Shorthands := List (List Char × Tag)

/-- The handles that every document knows. -/
def standardShorthands : Shorthands :=
  [("!".toList, Tag.ofText "!"), ("!!".toList, Tag.ofText "tag:yaml.org,2002:")]

/-- A tag written out. -/
def fullTag (shorthands : Shorthands) (handle : List Char) (suffix : Tag) : Except Error Tag :=
  if handle.isEmpty then .ok suffix
  else match shorthands.lookup handle with
    | some start => .ok (start ++ suffix)
    | none => .error .undefinedTagHandle

/-- Reads a tag if there is one. -/
def readTag? (shorthands : Shorthands) : Reader (Option Tag) := do
  match ← peek with
  | .tag handle suffix =>
    drop
    return some (← fullTag shorthands handle suffix)
  | _ => return none

/-- Reads an anchor if there is one, and numbers its name. -/
def readAnchor? : Reader (Option Nat) := do
  match ← peek with
  | .anchor name =>
    drop
    return some (← numberName name)
  | _ => return none

/-- Reads the anchor and the tag of a node, in either order. -/
def readProperties (shorthands : Shorthands) : Reader Properties := do
  match ← readAnchor? with
  | some anchor => return ⟨some anchor, ← readTag? shorthands⟩
  | none =>
    let tag? ← readTag? shorthands
    match tag? with
    | some tag => return ⟨← readAnchor?, some tag⟩
    | none => return .none

/-- Whether a token leaves an entry of a block sequence empty. -/
def endsBlockEntry : Token → Bool
  | .blockEntry | .blockEnd => true
  | _ => false

/-- Whether a token leaves a key, a value or an unindented entry of a block mapping empty. -/
def endsBlockPart : Token → Bool
  | .key | .value | .blockEnd => true
  | _ => false

mutual

/-- Reads a node.  Block collections are read only in a block, and a sequence without indentation
of its own only as the key or value of a block mapping. -/
def readNode (shorthands : Shorthands) (inBlock unindented : Bool) : Nat → Reader Node
  | 0 => throw .expectedNode
  | calls + 1 => do
    match ← peek with
    | .alias name =>
      drop
      return .alias (← resolve name)
    | _ =>
      let properties ← readProperties shorthands
      match ← peek, inBlock, unindented with
      | .blockEntry, _, true => return .sequence properties (← readUnindented shorthands calls)
      | .scalar style text, _, _ =>
        drop
        return .scalar properties style text
      | .flowSequenceStart, _, _ =>
        drop
        return .sequence properties (← readFlowItems shorthands true calls)
      | .flowMappingStart, _, _ =>
        drop
        return .mapping properties (← readFlowPairs shorthands true calls)
      | .blockSequenceStart, true, _ =>
        drop
        return .sequence properties (← readBlockItems shorthands calls)
      | .blockMappingStart, true, _ =>
        drop
        return .mapping properties (← readBlockPairs shorthands calls)
      | _, _, _ =>
        if properties = .none then throw .expectedNode
        return .scalar properties .plain []

/-- Reads the entries of a block sequence and its end. -/
def readBlockItems (shorthands : Shorthands) : Nat → Reader (List Node)
  | 0 => throw .expectedNode
  | calls + 1 => do
    match ← peek with
    | .blockEntry =>
      drop
      let item ← if endsBlockEntry (← peek) then pure empty
        else readNode shorthands true false calls
      return item :: (← readBlockItems shorthands calls)
    | .blockEnd =>
      drop
      return []
    | _ => throw .expectedEntry

/-- Reads the entries of a sequence without indentation of its own. -/
def readUnindented (shorthands : Shorthands) : Nat → Reader (List Node)
  | 0 => throw .expectedNode
  | calls + 1 => do
    match ← peek with
    | .blockEntry =>
      drop
      let next ← peek
      let item ← if endsBlockEntry next || endsBlockPart next then pure empty
        else readNode shorthands true false calls
      return item :: (← readUnindented shorthands calls)
    | _ => return []

/-- Reads the keys and values of a block mapping and its end. -/
def readBlockPairs (shorthands : Shorthands) : Nat → Reader (List (Node × Node))
  | 0 => throw .expectedNode
  | calls + 1 => do
    match ← peek with
    | .key =>
      drop
      let key ← if endsBlockPart (← peek) then pure empty
        else readNode shorthands true true calls
      let value ← match ← peek with
        | .value => do
          drop
          if endsBlockPart (← peek) then pure empty else readNode shorthands true true calls
        | _ => pure empty
      return (key, value) :: (← readBlockPairs shorthands calls)
    | .blockEnd =>
      drop
      return []
    | _ => throw .expectedKey

/-- Reads the value behind a key of a flow collection. -/
def readFlowValue (shorthands : Shorthands) : Nat → Reader Node
  | 0 => throw .expectedNode
  | calls + 1 => do
    match ← peek with
    | .value =>
      drop
      match ← peek with
      | .flowEntry | .flowSequenceEnd | .flowMappingEnd => return empty
      | _ => readNode shorthands false false calls
    | _ => return empty

/-- Reads the entries of a flow sequence and its end; before every entry but the first stands a
comma.  An entry may be a single pair. -/
def readFlowItems (shorthands : Shorthands) (isFirst : Bool) : Nat → Reader (List Node)
  | 0 => throw .expectedNode
  | calls + 1 => do
    match ← peek with
    | .flowSequenceEnd =>
      drop
      return []
    | token =>
      if !isFirst then
        if token = .flowEntry then drop else throw .expectedEntry
      match ← peek with
      | .flowSequenceEnd =>
        drop
        return []
      | .key =>
        drop
        let key ← match ← peek with
          | .value | .flowEntry | .flowSequenceEnd => do
            drop
            pure empty
          | _ => readNode shorthands false false calls
        let value ← readFlowValue shorthands calls
        return .mapping .none [(key, value)] :: (← readFlowItems shorthands false calls)
      | _ =>
        let item ← readNode shorthands false false calls
        return item :: (← readFlowItems shorthands false calls)

/-- Reads the pairs of a flow mapping and its end; before every pair but the first stands a
comma.  A pair may be a key alone. -/
def readFlowPairs (shorthands : Shorthands) (isFirst : Bool) :
    Nat → Reader (List (Node × Node))
  | 0 => throw .expectedNode
  | calls + 1 => do
    match ← peek with
    | .flowMappingEnd =>
      drop
      return []
    | token =>
      if !isFirst then
        if token = .flowEntry then drop else throw .expectedKey
      match ← peek with
      | .flowMappingEnd =>
        drop
        return []
      | .key =>
        drop
        let key ← match ← peek with
          | .value | .flowEntry | .flowMappingEnd => pure empty
          | _ => readNode shorthands false false calls
        let value ← readFlowValue shorthands calls
        return (key, value) :: (← readFlowPairs shorthands false calls)
      | _ =>
        let key ← readNode shorthands false false calls
        return (key, empty) :: (← readFlowPairs shorthands false calls)

end

/-- Reads the directives before a document.  The version is given at most once and is 1.1 or 1.2,
and every handle is given at most once. -/
def readDirectives (hasVersion : Bool) (shorthands : Shorthands) :
    List Token → Except Error (Shorthands × List Token)
  | .version major minor :: rest =>
    if hasVersion then .error .duplicateDirective
    else if major = 1 ∧ (minor = 1 ∨ minor = 2) then readDirectives true shorthands rest
    else .error .unsupportedVersion
  | .tagShorthand handle start :: rest =>
    if (shorthands.lookup handle).isSome then .error .duplicateDirective
    else readDirectives hasVersion ((handle, start) :: shorthands) rest
  | rest => .ok (shorthands, rest)

/-- Whether a token leaves a document empty. -/
def endsDocument : Token → Bool
  | .version _ _ | .tagShorthand _ _ | .documentStart | .documentEnd | .streamEnd => true
  | _ => false

/-- Reads the only document of a stream; the stream ends behind it. -/
def readOnly (shorthands : Shorthands) (tokens : List Token) : Except Error Node := do
  let (node, reading) ← (readNode shorthands true false (4 * tokens.length + 8)).run ⟨tokens, []⟩
  match reading.tokens.dropWhile (· = .documentEnd) with
  | [.streamEnd] => return node
  | _ => throw .severalDocuments

/-- The document of a stream, if it has content. -/
def ofTokens? (tokens : List Token) : Except Error (Option Node) := do
  match tokens with
  | [.streamEnd] => return none
  | first :: _ =>
    if endsDocument first && first ≠ .documentEnd then
      let (shorthands, rest) ← readDirectives false [] tokens
      match rest with
      | .documentStart :: content =>
        let shorthands := shorthands ++ standardShorthands
        match content with
        | next :: _ =>
          if endsDocument next then
            match content.dropWhile (· = .documentEnd) with
            | [.streamEnd] => return some empty
            | _ => throw .severalDocuments
          else return some (← readOnly shorthands content)
        | [] => return some empty
      | _ => throw .expectedDocumentStart
    else return some (← readOnly standardShorthands tokens)
  | [] => return none

end Node

/-- A document: its tree, and its numbered nodes, the last one first. -/
structure Document where
  root : Node
  anchored : List (Nat × Node)

namespace Document

/-- The document with a tree. -/
def ofRoot (root : Node) : Document := ⟨root, root.anchored.reverse⟩

/-- The node itself, or the one that it stands for if it is an alias. -/
def follow (d : Document) (node : Node) : Node :=
  match node with
  | .alias number => (d.anchored.lookup number).getD node
  | _ => node

end Document

/-- The document that a text holds; an empty stream has none. -/
def document (text : String) : Except Error (Option Document) := do
  let root? ← Node.ofTokens? (← tokens text.toList)
  return root?.map Document.ofRoot

end Stencil.Yaml
