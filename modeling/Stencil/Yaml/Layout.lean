import Stencil.Yaml.Token

/-! # Layout

Turns the characters of a document into tokens.  Two things need memory.  Indentation opens and
closes block collections, so the columns of the open ones are kept.  And a key is recognised only
by the `:` behind it, so the place of the last token that could be one is kept for every level of
flow collections; when the `:` comes, the `key` token is inserted there.  A possible key is on one
line and at most 1024 bytes long.

A byte order mark at the start of a line is skipped, but it takes a column: what follows it stands
further in than a line without one.
-/

namespace Stencil.Yaml

/-- A place in a document.  Lines and columns count characters, the index counts bytes. -/
structure Position where
  line : Nat
  column : Nat
  index : Nat
deriving DecidableEq, Repr

/-- The place behind a character. -/
def Position.after (p : Position) (c : Char) : Position :=
  if isBreak c then ⟨p.line + 1, 0, p.index + c.utf8Size⟩
  else ⟨p.line, p.column + 1, p.index + c.utf8Size⟩

/-- The place of a token that may turn out to be a key.  It is required to be one if it stands at
the indentation of a block collection. -/
structure PossibleKey where
  token : Nat
  position : Position
  required : Bool
deriving DecidableEq, Repr

/-- A document read up to a place.  `outerKeys` has one entry for each open flow collection;
`indent` is the column of the innermost block collection and `-1` outside of all. -/
structure Layout where
  rest : List Char
  position : Position
  keyAllowed : Bool
  indent : Int
  outerIndents : List Int
  key? : Option PossibleKey
  outerKeys : List (Option PossibleKey)
  tokens : List Token
deriving Repr

namespace Layout

/-- A document of which nothing was read. -/
def start (cs : List Char) : Layout :=
  { rest := cs, position := ⟨0, 0, 0⟩, keyAllowed := true, indent := -1, outerIndents := []
    key? := none, outerKeys := [], tokens := [] }

/-- Whether the place is inside a flow collection. -/
def inFlow (s : Layout) : Bool := !s.outerKeys.isEmpty

/-- Adds a token. -/
def emit (s : Layout) (token : Token) : Layout := { s with tokens := s.tokens ++ [token] }

/-- Moves on to what is left of the text. -/
def moveTo (s : Layout) (rest : List Char) : Layout :=
  { s with
    rest
    position := (s.rest.take (s.rest.length - rest.length)).foldl Position.after s.position }

/-- Skips blanks, comments and line breaks, outside (`inComment = false`) or inside a comment.  In
a block a new line may start with a key, and a tab in front of a possible key is not skipped. -/
def skipFrom (inFlow : Bool) (keyAllowed inComment : Bool) (p : Position) :
    List Char → Bool × Position × List Char
  | [] => (keyAllowed, p, [])
  | c :: rest =>
    if isBreak c then skipFrom inFlow (keyAllowed || !inFlow) false (p.after c) rest
    else if inComment || c == ' ' || (c == '\t' && (inFlow || !keyAllowed))
        || (c == byteOrderMark && p.column == 0) then
      skipFrom inFlow keyAllowed inComment (p.after c) rest
    else if c == '#' then skipFrom inFlow keyAllowed true (p.after c) rest
    else (keyAllowed, p, c :: rest)

/-- Skips to the next token. -/
def skip (s : Layout) : Layout :=
  let (keyAllowed, position, rest) := skipFrom s.inFlow s.keyAllowed false s.position s.rest
  { s with keyAllowed, position, rest }

/-- What remains of a possible key at a later place. -/
def refreshKey (p : Position) : Option PossibleKey → Except Error (Option PossibleKey)
  | none => .ok none
  | some key =>
    if key.position.line < p.line ∨ key.position.index + 1024 < p.index then
      if key.required then .error .missingColon else .ok none
    else .ok (some key)

/-- Forgets the possible keys that lie too far back. -/
def refreshKeys (s : Layout) : Except Error Layout := do
  let key? ← refreshKey s.position s.key?
  let outerKeys ← s.outerKeys.mapM (refreshKey s.position)
  return { s with key?, outerKeys }

/-- Gives up the possible key of this level. -/
def dropKey (s : Layout) : Except Error Layout :=
  match s.key? with
  | some key => if key.required then .error .missingColon else .ok { s with key? := none }
  | none => .ok s

/-- Notes that the next token may be a key. -/
def noteKey (s : Layout) : Except Error Layout := do
  if s.keyAllowed then
    let required := !s.inFlow && s.indent == (s.position.column : Int)
    let s ← s.dropKey
    return { s with key? := some ⟨s.tokens.length, s.position, required⟩ }
  else return s

/-- Opens a block collection at a column that lies further in, with its token at the given place
among the tokens. -/
def openBlock (s : Layout) (column place : Nat) (token : Token) : Layout :=
  if !s.inFlow && s.indent < (column : Int) then
    { s with
      indent := column
      outerIndents := s.indent :: s.outerIndents
      tokens := s.tokens.insertIdx place token }
  else s

/-- The indentation that is left at a column, with the number of collections that end there. -/
def closeIndents (column indent : Int) : List Int → Int × List Int × Nat
  | [] => (indent, [], 0)
  | outer :: outers =>
    if column < indent then
      let (left, rest, count) := closeIndents column outer outers
      (left, rest, count + 1)
    else (indent, outer :: outers, 0)

/-- Closes the block collections that lie further in than a column. -/
def closeBlocks (s : Layout) (column : Int) : Layout :=
  if s.inFlow then s
  else
    let (indent, outerIndents, count) := closeIndents column s.indent s.outerIndents
    { s with indent, outerIndents, tokens := s.tokens ++ List.replicate count .blockEnd }

/-! ## One token -/

/-- A directive. -/
def directive (s : Layout) (rest : List Char) : Except Error Layout := do
  let s ← (s.closeBlocks (-1)).dropKey
  let (token, rest) ← Token.readDirective rest
  return { s.moveTo rest with keyAllowed := false }.emit token

/-- A mark before or after a document. -/
def documentMark (s : Layout) (token : Token) : Except Error Layout := do
  let s ← (s.closeBlocks (-1)).dropKey
  return { s.moveTo (s.rest.drop 3) with keyAllowed := false }.emit token

/-- An opening bracket. -/
def openFlow (s : Layout) (token : Token) (rest : List Char) : Except Error Layout := do
  let s ← s.noteKey
  return { s.moveTo rest with
    keyAllowed := true, key? := none, outerKeys := s.key? :: s.outerKeys }.emit token

/-- A closing bracket. -/
def closeFlow (s : Layout) (token : Token) (rest : List Char) : Except Error Layout := do
  let s ← s.dropKey
  let s := { s.moveTo rest with keyAllowed := false }
  match s.outerKeys with
  | key? :: outerKeys => return { s with key?, outerKeys }.emit token
  | [] => return s.emit token

/-- A comma. -/
def flowEntry (s : Layout) (rest : List Char) : Except Error Layout := do
  let s ← s.dropKey
  return { s.moveTo rest with keyAllowed := true }.emit .flowEntry

/-- The indicator of an entry of a block sequence. -/
def blockEntry (s : Layout) (rest : List Char) : Except Error Layout := do
  if !s.inFlow && !s.keyAllowed then throw .misplacedIndicator
  let s ← (s.openBlock s.position.column s.tokens.length .blockSequenceStart).dropKey
  return { s.moveTo rest with keyAllowed := true }.emit .blockEntry

/-- The indicator of a key. -/
def keyIndicator (s : Layout) (rest : List Char) : Except Error Layout := do
  if !s.inFlow && !s.keyAllowed then throw .misplacedIndicator
  let s ← (s.openBlock s.position.column s.tokens.length .blockMappingStart).dropKey
  return { s.moveTo rest with keyAllowed := !s.inFlow }.emit .key

/-- The indicator of a value.  If a key is possible it is one, and may open a mapping. -/
def valueIndicator (s : Layout) (rest : List Char) : Except Error Layout := do
  match s.key? with
  | some key =>
    let s := { s with tokens := s.tokens.insertIdx key.token .key, key? := none }
    let s := s.openBlock key.position.column key.token .blockMappingStart
    return { s.moveTo rest with keyAllowed := false }.emit .value
  | none =>
    if !s.inFlow && !s.keyAllowed then throw .misplacedIndicator
    let s := s.openBlock s.position.column s.tokens.length .blockMappingStart
    return { s.moveTo rest with keyAllowed := !s.inFlow }.emit .value

/-- An anchor or alias, after its indicator. -/
def anchor (s : Layout) (token : List Char → Token) (rest : List Char) : Except Error Layout := do
  let s ← s.noteKey
  let (name, rest) ← Token.readAnchor rest
  return { s.moveTo rest with keyAllowed := false }.emit (token name)

/-- A tag, after its indicator. -/
def tag (s : Layout) (rest : List Char) : Except Error Layout := do
  let s ← s.noteKey
  let (token, rest) ← Token.readTag s.inFlow rest
  return { s.moveTo rest with keyAllowed := false }.emit token

/-- A literal or folded scalar, after its indicator. -/
def block (s : Layout) (style : Style) (rest : List Char) : Except Error Layout := do
  let s ← s.dropKey
  let scalar ← readBlock (style == .folded) s.indent rest
  return { s.moveTo scalar.rest with keyAllowed := true }.emit (.scalar style scalar.text)

/-- A quoted scalar, after its quote. -/
def quotation (s : Layout) (style : Style) (read : Except Error Quotation) :
    Except Error Layout := do
  let s ← s.noteKey
  let scalar ← read
  return { s.moveTo scalar.rest with keyAllowed := false }.emit (.scalar style scalar.text)

/-- A plain scalar.  Behind a line break another key is possible. -/
def plain (s : Layout) : Except Error Layout := do
  let s ← s.noteKey
  let scalar ← readPlain ⟨s.inFlow, s.indent + 1⟩ true Gap.none [] s.position.column s.rest
  return { s.moveTo scalar.rest with keyAllowed := scalar.brokeLine }.emit
    (.scalar .plain scalar.text)

/-- Whether a plain scalar can start with a character. -/
def startsPlain (inFlow : Bool) (c : Char) (rest : List Char) : Bool :=
  let isIndicator := ['-', '?', ':', ',', '[', ']', '\x7b', '\x7d', '#', '&', '*', '!', '|', '>',
    '\x27', '\x22', '%', '@', '\x60'].contains c
  !(isSpace c || isBreak c || isIndicator)
    || (c == '-' && match rest with
      | next :: _ => !isSpace next
      | [] => true)
    || (!inFlow && (c == '?' || c == ':') && !endsWord rest)

/-- Reads the token that starts with the given character. -/
def fetch (s : Layout) (c : Char) (rest : List Char) : Except Error Layout :=
  if c = '%' ∧ s.position.column = 0 then s.directive rest
  else if s.position.column = 0 ∧ atDocumentMark (c :: rest) then
    s.documentMark (if c = '-' then .documentStart else .documentEnd)
  else if c = '[' then s.openFlow .flowSequenceStart rest
  else if c = '\x7b' then s.openFlow .flowMappingStart rest
  else if c = ']' then s.closeFlow .flowSequenceEnd rest
  else if c = '\x7d' then s.closeFlow .flowMappingEnd rest
  else if c = ',' then s.flowEntry rest
  else if c = '-' ∧ endsWord rest then s.blockEntry rest
  else if c = '?' ∧ (s.inFlow ∨ endsWord rest) then s.keyIndicator rest
  else if c = ':' ∧ (s.inFlow ∨ endsWord rest) then s.valueIndicator rest
  else if c = '*' then s.anchor .alias rest
  else if c = '&' then s.anchor .anchor rest
  else if c = '!' then s.tag rest
  else if c = '|' ∧ !s.inFlow then s.block .literal rest
  else if c = '>' ∧ !s.inFlow then s.block .folded rest
  else if c = '\x27' then s.quotation .singleQuoted (readSingleQuoted Gap.none [] false rest)
  else if c = '\x22' then s.quotation .doubleQuoted (readDoubleQuoted .text Gap.none [] false rest)
  else if startsPlain s.inFlow c rest then s.plain
  else .error .strangeCharacter

/-- Ends the document. -/
def finish (s : Layout) : Except Error (List Token) := do
  let s ← (s.closeBlocks (-1)).dropKey
  return s.tokens ++ [.streamEnd]

/-- Reads all tokens.  Every round consumes a character, so as many rounds as there are characters
suffice. -/
def run : Nat → Layout → Except Error (List Token)
  | 0, s => s.finish
  | rounds + 1, s => do
    let s ← s.skip.refreshKeys
    let s := s.closeBlocks s.position.column
    match s.rest with
    | [] => s.finish
    | c :: rest =>
      let s ← s.fetch c rest
      run rounds s

end Layout

/-- The tokens of a document. -/
def tokens (cs : List Char) : Except Error (List Token) :=
  if cs.all isAllowed then
    let text := unifyBreaks cs
    (Layout.start text).run (text.length + 1)
  else .error .forbiddenCharacter

end Stencil.Yaml
