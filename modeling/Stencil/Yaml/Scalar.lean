import Stencil.Yaml.Character

/-! # Scalars

The texts of plain, quoted and block scalars.  A scalar of the first two kinds may go on over
several lines: blanks around a line break vanish, one break becomes a space, and of several breaks
all but the first stay.  `Gap` holds what was read since the last visible character and knows what
of it remains.

Each reader goes through the characters one by one and returns the text with what follows it.
-/

namespace Stencil.Yaml

/-- How a scalar is written. -/
inductive Style where
  | plain
  | singleQuoted
  | doubleQuoted
  | literal
  | folded
deriving DecidableEq, Repr

/-- What stands between two visible characters of a scalar, last character first: blanks on one
line, or a first line break, unless it was escaped, and the breaks after it. -/
inductive Gap where
  | blanks (reversed : List Char)
  | breaks (first : Option Char) (reversed : List Char)
deriving DecidableEq, Repr

namespace Gap

/-- No gap. -/
def none : Gap := .blanks []

/-- A gap with one more blank; behind a line break it vanishes. -/
def blank (c : Char) : Gap → Gap
  | .blanks cs => .blanks (c :: cs)
  | .breaks first more => .breaks first more

/-- A gap with one more line break. -/
def lineBreak (c : Char) : Gap → Gap
  | .blanks _ => .breaks (some c) []
  | .breaks first more => .breaks first (c :: more)

/-- Whether a gap goes on to another line. -/
def isBroken : Gap → Bool
  | .blanks _ => false
  | .breaks _ _ => true

/-- What remains of a gap. -/
def folded : Gap → List Char
  | .blanks cs => cs.reverse
  | .breaks (some '\n') [] => [' ']
  | .breaks (some '\n') more => more.reverse
  | .breaks (some c) more => c :: more.reverse
  | .breaks Option.none more => more.reverse

end Gap

/-- A text read so far, last character first, with a gap closed and a character added. -/
def extend (reversed : List Char) (gap : Gap) (c : Char) : List Char :=
  c :: (gap.folded.reverse ++ reversed)

/-! ## Plain scalars -/

/-- What the text of a plain scalar depends on: whether it stands in a flow collection, and the
column that its lines have to reach. -/
structure PlainContext where
  inFlow : Bool
  minColumn : Int

/-- A plain scalar with what follows it, and whether line breaks were read behind it. -/
structure PlainScalar where
  text : List Char
  brokeLine : Bool
  rest : List Char

/-- Whether a character ends a plain scalar although no blank comes before it. -/
def endsPlain (context : PlainContext) (c : Char) (rest : List Char) : Bool :=
  (c == ':' && endsWord rest) || (context.inFlow && isFlowIndicator c)

/-- Whether a plain scalar in a flow collection holds a colon at a place where it is ambiguous. -/
def isAmbiguousColon (context : PlainContext) (c : Char) (rest : List Char) : Bool :=
  context.inFlow && c == ':' && match rest with
    | next :: _ => isFlowIndicator next || next == '?'
    | [] => false

/-- Whether a plain scalar stops at a character that comes first or behind a gap. -/
def stopsAfterGap (context : PlainContext) (gap : Gap) (column : Nat) (c : Char)
    (rest : List Char) : Bool :=
  (gap.isBroken && !context.inFlow && column < context.minColumn)
    || (column == 0 && atDocumentMark (c :: rest)) || c == '#'

/-- Reads a plain scalar.  `inGap` says that the next visible character comes first or behind a
gap. -/
def readPlain (context : PlainContext) (inGap : Bool) (gap : Gap) (reversed : List Char)
    (column : Nat) : List Char → Except Error PlainScalar
  | [] => .ok ⟨reversed.reverse, gap.isBroken, []⟩
  | c :: rest =>
    if isBreak c then
      readPlain context true (gap.lineBreak c) reversed 0 rest
    else if isSpace c then
      if gap.isBroken && c == '\t' && column < context.minColumn then .error .tabInIndentation
      else readPlain context true (gap.blank c) reversed (column + 1) rest
    else if inGap && stopsAfterGap context gap column c rest then
      .ok ⟨reversed.reverse, gap.isBroken, c :: rest⟩
    else if isAmbiguousColon context c rest then .error .unexpectedColon
    else if endsPlain context c rest then .ok ⟨reversed.reverse, gap.isBroken, c :: rest⟩
    else readPlain context false Gap.none (extend reversed gap c) (column + 1) rest

/-! ## Quoted scalars -/

/-- A scalar with what follows it. -/
structure Quotation where
  text : List Char
  rest : List Char

/-- Reads a single quoted scalar after its first quote; a quote inside is written twice. -/
def readSingleQuoted (gap : Gap) (reversed : List Char) (atLineStart : Bool) :
    List Char → Except Error Quotation
  | [] => .error .unclosedQuote
  | '\x27' :: '\x27' :: rest => readSingleQuoted Gap.none (extend reversed gap '\x27') false rest
  | c :: rest =>
    if isBreak c then readSingleQuoted (gap.lineBreak c) reversed true rest
    else if isSpace c then readSingleQuoted (gap.blank c) reversed false rest
    else if atLineStart && atDocumentMark (c :: rest) then .error .unexpectedDocumentMark
    else if c = '\x27' then .ok ⟨(gap.folded.reverse ++ reversed).reverse, rest⟩
    else readSingleQuoted Gap.none (extend reversed gap c) false rest

/-- The characters that a backslash and one letter stand for. -/
def simpleEscape? : Char → Option Char
  | '0' => some '\x00'
  | 'a' => some '\x07'
  | 'b' => some '\x08'
  | 't' => some '\t'
  | '\t' => some '\t'
  | 'n' => some '\n'
  | 'v' => some '\x0b'
  | 'f' => some '\x0c'
  | 'r' => some '\r'
  | 'e' => some '\x1b'
  | ' ' => some ' '
  | '\x22' => some '\x22'
  | '/' => some '/'
  | '\x5c' => some '\x5c'
  | 'N' => some '\u0085'
  | '_' => some '\u00a0'
  | 'L' => some '\u2028'
  | 'P' => some '\u2029'
  | _ => none

/-- How many hexadecimal digits follow a backslash and this letter. -/
def escapeLength? : Char → Option Nat
  | 'x' => some 2
  | 'u' => some 4
  | 'U' => some 8
  | _ => none

/-- The character with a number. -/
def charOfNumber? (n : Nat) : Option Char := if h : n.isValidChar then some (Char.ofNatAux n h) else none

/-- What a double quoted scalar expects: text, the letter of an escape, or the given number of
digits of one, after digits of the given value. -/
inductive DoubleMode where
  | text
  | escape
  | digits (left value : Nat)
deriving DecidableEq, Repr

/-- Reads a double quoted scalar after its first quote. -/
def readDoubleQuoted (mode : DoubleMode) (gap : Gap) (reversed : List Char) (atLineStart : Bool) :
    List Char → Except Error Quotation
  | [] => .error .unclosedQuote
  | c :: rest =>
    match mode with
    | .text =>
      if isBreak c then readDoubleQuoted .text (gap.lineBreak c) reversed true rest
      else if isSpace c then readDoubleQuoted .text (gap.blank c) reversed false rest
      else if atLineStart && atDocumentMark (c :: rest) then .error .unexpectedDocumentMark
      else if c = '\x22' then .ok ⟨(gap.folded.reverse ++ reversed).reverse, rest⟩
      else if c = '\x5c' then
        readDoubleQuoted .escape Gap.none (gap.folded.reverse ++ reversed) false rest
      else readDoubleQuoted .text Gap.none (extend reversed gap c) false rest
    | .escape =>
      if isBreak c then readDoubleQuoted .text (.breaks none []) reversed true rest
      else match simpleEscape? c with
        | some meant => readDoubleQuoted .text Gap.none (meant :: reversed) false rest
        | none => match escapeLength? c with
          | some count => readDoubleQuoted (.digits count 0) Gap.none reversed false rest
          | none => .error .badEscape
    | .digits left value =>
      match hexDigit? c with
      | none => .error .badEscape
      | some digit =>
        let value := value * 16 + digit
        if 1 < left then readDoubleQuoted (.digits (left - 1) value) Gap.none reversed false rest
        else match charOfNumber? value with
          | some meant => readDoubleQuoted .text Gap.none (meant :: reversed) false rest
          | none => .error .badEscape

/-! ## Block scalars -/

/-- What becomes of the line breaks at the end of a block scalar. -/
inductive Chomping where
  | strip
  | clip
  | keep
deriving DecidableEq, Repr

/-- The indicators that open a block scalar. -/
structure BlockHeader where
  chomping : Chomping
  indent? : Option Nat
deriving DecidableEq, Repr

/-- The chomping that a character stands for. -/
def chomping? : Char → Option Chomping
  | '+' => some .keep
  | '-' => some .strip
  | _ => none

/-- Reads an indentation indicator; zero is none. -/
def readIndent : List Char → Except Error (Option Nat × List Char)
  | c :: rest =>
    if c = '0' then .error .badBlockHeader
    else if c.isDigit then .ok (some (c.toNat - '0'.toNat), rest)
    else .ok (none, c :: rest)
  | [] => .ok (none, [])

/-- Reads the rest of the line that opens a block scalar, with the line break. -/
def readHeaderEnd (cs : List Char) : Except Error (List Char) :=
  let rest := cs.dropWhile isSpace
  let rest := match rest with
    | '#' :: _ => rest.dropWhile fun c => !isBreak c
    | _ => rest
  match rest with
  | [] => .ok []
  | c :: after => if isBreak c then .ok after else .error .badBlockHeader

/-- Reads the indicators of a block scalar, in either order, and the rest of their line. -/
def readHeader (cs : List Char) : Except Error (BlockHeader × List Char) :=
  match cs with
  | [] => .ok (⟨.clip, none⟩, [])
  | c :: rest =>
    match chomping? c with
    | some chomping => do
      let (indent?, rest) ← readIndent rest
      let rest ← readHeaderEnd rest
      return (⟨chomping, indent?⟩, rest)
    | none => do
      let (indent?, rest) ← readIndent cs
      let (chomping, rest) := match indent?, rest with
        | some _, d :: after => match chomping? d with
          | some chomping => (chomping, after)
          | none => (.clip, rest)
        | _, _ => (.clip, rest)
      let rest ← readHeaderEnd rest
      return (⟨chomping, indent?⟩, rest)

/-- The blank lines that open a block scalar: their breaks, last first, the largest indentation
seen, and the column that was reached. -/
structure Opening where
  reversedBreaks : List Char
  maxIndent : Nat
  column : Nat
  rest : List Char

/-- Reads the blank lines that open a block scalar and the indentation of the line after them.
With a known indentation no more spaces than it are read. -/
def readOpening (known : Option Nat) (reversedBreaks : List Char) (maxIndent column : Nat) :
    List Char → Except Error Opening
  | [] => .ok ⟨reversedBreaks, maxIndent, column, []⟩
  | c :: rest =>
    let inside := known.all fun indent => column < indent
    if inside && c == ' ' then
      readOpening known reversedBreaks (max maxIndent (column + 1)) (column + 1) rest
    else if inside && c == '\t' then .error .tabInIndentation
    else if isBreak c then readOpening known (c :: reversedBreaks) maxIndent 0 rest
    else .ok ⟨reversedBreaks, maxIndent, column, c :: rest⟩

/-- The lines of a block scalar read so far.  `lastBreak?` ended the last line with content, and
the breaks of the blank lines after it wait in `pending`, last first. -/
structure BlockText where
  reversed : List Char
  lastBreak? : Option Char
  pending : List Char
  lastLineBlank : Bool

namespace BlockText

/-- Starts a line that begins with the given character.  In a folded scalar the break before it
becomes a space or vanishes, unless one of the two lines begins with a blank. -/
def startLine (folds : Bool) (t : BlockText) (c : Char) : BlockText :=
  let joint :=
    if folds && t.lastBreak? == some '\n' && !t.lastLineBlank && !isSpace c then
      if t.pending.isEmpty then [' '] else []
    else t.lastBreak?.toList
  ⟨c :: (t.pending ++ joint ++ t.reversed), none, [], isSpace c⟩

/-- The text of a scalar, with the line breaks at its end as chomping says. -/
def finish (chomping : Chomping) (t : BlockText) : List Char :=
  match chomping with
  | .strip => t.reversed.reverse
  | .clip => (t.lastBreak?.toList ++ t.reversed).reverse
  | .keep => (t.pending ++ t.lastBreak?.toList ++ t.reversed).reverse

end BlockText

/-- A block scalar's lines, and what follows them from the given column on. -/
structure BlockEnd where
  lines : BlockText
  rest : List Char

/-- Reads the lines of a block scalar.  The column is that of the next character as long as the
indentation of a line is read, and absent inside a line. -/
def readBlockLines (folds : Bool) (indent : Nat) (t : BlockText) (column? : Option Nat) :
    List Char → Except Error BlockEnd
  | [] => .ok ⟨t, []⟩
  | c :: rest =>
    match column? with
    | none =>
      if isBreak c then readBlockLines folds indent { t with lastBreak? := some c } (some 0) rest
      else readBlockLines folds indent { t with reversed := c :: t.reversed } none rest
    | some column =>
      if c = ' ' ∧ column < indent then readBlockLines folds indent t (some (column + 1)) rest
      else if c = '\t' ∧ column < indent then .error .tabInIndentation
      else if isBreak c then
        readBlockLines folds indent { t with pending := c :: t.pending } (some 0) rest
      else if column = indent then
        readBlockLines folds indent (t.startLine folds c) none rest
      else .ok ⟨t, c :: rest⟩

/-- Reads a block scalar after its first indicator.  The indentation of the collection around it
is `-1` at the top of a document. -/
def readBlock (folds : Bool) (outerIndent : Int) (cs : List Char) : Except Error Quotation := do
  let (header, rest) ← readHeader cs
  let known := header.indent?.map fun extra => (max outerIndent 0).toNat + extra
  let opening ← readOpening known [] 0 0 rest
  let indent := known.getD (max opening.maxIndent (max (outerIndent + 1).toNat 1))
  let start : BlockText := ⟨[], none, opening.reversedBreaks, false⟩
  let content ← readBlockLines folds indent start (some opening.column) opening.rest
  return ⟨content.lines.finish header.chomping, content.rest⟩

end Stencil.Yaml
