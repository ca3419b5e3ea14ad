import Stencil.Yaml.Scalar

/-! # Tokens

The tokens of a YAML document, and the readers of those that are neither scalars nor single
indicators: anchors, tags and directives.
-/

namespace Stencil.Yaml

/-- A tag.  It is a sequence of bytes, which need not be the form of a text, and it ends in front
of the first zero byte. -/
abbrev Tag := List UInt8

namespace Tag

/-- The tag that a text of ASCII characters gives. -/
def ofText (s : String) : Tag := s.toList.map fun c => UInt8.ofNat c.toNat

/-- The bytes in front of the first zero byte. -/
def untilZero (bytes : List UInt8) : Tag := bytes.takeWhile (· ≠ 0)

end Tag

/-- A token.  Block collections, which have no brackets, are opened and closed by tokens that
stand for their indentation; `key` may stand for a key that was recognised by the `:` behind it. -/
inductive Token where
  | version (major minor : Nat)
  | tagShorthand (handle : List Char) (start : Tag)
  | documentStart
  | documentEnd
  | blockSequenceStart
  | blockMappingStart
  | blockEnd
  | flowSequenceStart
  | flowSequenceEnd
  | flowMappingStart
  | flowMappingEnd
  | blockEntry
  | flowEntry
  | key
  | value
  | anchor (name : List Char)
  | alias (name : List Char)
  | tag (handle : List Char) (suffix : Tag)
  | scalar (style : Style) (text : List Char)
  | streamEnd
deriving DecidableEq, Repr

namespace Token

/-- The indicators that may follow the name of an anchor without a blank. -/
def endsAnchor : List Char → Bool
  | [] => true
  | c :: rest =>
    endsWord (c :: rest) || ['?', ':', ',', ']', '\x7d', '%', '@', '\x60'].contains c

/-- Reads the name of an anchor or alias. -/
def readAnchor (cs : List Char) : Except Error (List Char × List Char) :=
  let name := cs.takeWhile isWordChar
  let rest := cs.dropWhile isWordChar
  if name.isEmpty || !endsAnchor rest then .error .badAnchor else .ok (name, rest)

/-- The characters of a tag; commas and brackets only where the tag has an end of its own. -/
def isTagChar (delimited : Bool) (c : Char) : Bool :=
  isWordChar c
    || [';', '/', '?', ':', '@', '&', '=', '+', '$', '.', '%', '!', '~', '*', '\x27', '(', ')'].contains c
    || (delimited && [',', '[', ']'].contains c)

/-- How many octets the sequence has that an octet opens, as its high bits say. -/
def sequenceLength? (octet : Nat) : Option Nat :=
  if octet < 0x80 then some 1
  else if 0xc0 ≤ octet ∧ octet < 0xe0 then some 2
  else if 0xe0 ≤ octet ∧ octet < 0xf0 then some 3
  else if 0xf0 ≤ octet ∧ octet < 0xf8 then some 4
  else none

/-- How many octets of a sequence are left behind an octet, if so many were left before it. -/
def octetsLeft? (left octet : Nat) : Option Nat :=
  match left with
  | 0 => (sequenceLength? octet).map (· - 1)
  | more + 1 => if 0x80 ≤ octet ∧ octet < 0xc0 then some more else none

/-- The bytes of a text in which an octet can be written as `%` and two hexadecimal digits.  The
octets of a sequence, of which `left` are still to come, are written one behind the other; that the
sequence stands for a character is not asked. -/
def percentBytes (left : Nat) : List Char → Except Error (List UInt8)
  | [] => if left = 0 then .ok [] else .error .badTag
  | '%' :: a :: b :: rest => do
    match hexDigit? a, hexDigit? b with
    | some high, some low =>
      let octet := high * 16 + low
      match octetsLeft? left octet with
      | some more =>
        let bytes ← percentBytes more rest
        return UInt8.ofNat octet :: bytes
      | none => throw .badTag
    | _, _ => throw .badTag
  | c :: rest => do
    if c = '%' ∨ left ≠ 0 then throw .badTag
    let bytes ← percentBytes 0 rest
    return UInt8.ofNat c.toNat :: bytes

/-- Reads part of a tag; it may be empty. -/
def readTagPart (delimited : Bool) (cs : List Char) : Except Error (Tag × List Char) := do
  let bytes ← percentBytes 0 (cs.takeWhile (isTagChar delimited))
  return (bytes, cs.dropWhile (isTagChar delimited))

/-- Reads part of a tag that is not empty. -/
def readTagPartNonempty (delimited : Bool) (cs : List Char) : Except Error (Tag × List Char) := do
  let (bytes, rest) ← readTagPart delimited cs
  if bytes.isEmpty then throw .badTag
  return (Tag.untilZero bytes, rest)

/-- Reads what follows the exclamation mark of a tag: the text of `<…>`, the handle `!word!` and a
suffix, or a suffix of the handle `!`.  A lone exclamation mark is a suffix without handle. -/
def readTagText (cs : List Char) : Except Error (List Char × Tag × List Char) := do
  match cs with
  | '<' :: inside =>
    let (text, rest) ← readTagPartNonempty true inside
    match rest with
    | '>' :: rest => return ([], text, rest)
    | _ => throw .badTag
  | _ =>
    let word := cs.takeWhile isWordChar
    match cs.dropWhile isWordChar with
    | '!' :: after =>
      let (suffix, rest) ← readTagPartNonempty false after
      return ('!' :: word ++ ['!'], suffix, rest)
    | _ =>
      let (bytes, rest) ← readTagPart false cs
      let suffix := Tag.untilZero bytes
      if suffix.isEmpty then return ([], Tag.ofText "!", rest)
      return (['!'], suffix, rest)

/-- Reads a tag after its exclamation mark.  A blank has to follow it, or a comma in a flow
collection. -/
def readTag (inFlow : Bool) (cs : List Char) : Except Error (Token × List Char) := do
  let (handle, suffix, rest) ← readTagText cs
  match inFlow, rest with
  | true, ',' :: _ => return (.tag handle suffix, rest)
  | _, _ => if endsWord rest then return (.tag handle suffix, rest) else throw .badTag

/-- Reads the number of a version, of at most nine digits. -/
def readVersionNumber (cs : List Char) : Except Error (Nat × List Char) :=
  let digits := cs.takeWhile Char.isDigit
  if digits.isEmpty || 9 < digits.length then .error .badDirective
  else .ok (Nat.ofDigitChars 10 digits 0, cs.dropWhile Char.isDigit)

/-- Reads the version that a directive gives. -/
def readVersion (cs : List Char) : Except Error (Token × List Char) := do
  let (major, rest) ← readVersionNumber (cs.dropWhile isSpace)
  match rest with
  | '.' :: rest =>
    let (minor, rest) ← readVersionNumber rest
    return (.version major minor, rest)
  | _ => throw .badDirective

/-- Reads a tag handle: `!`, `!!` or `!word!`. -/
def readHandle : List Char → Except Error (List Char × List Char)
  | '!' :: cs =>
    let word := cs.takeWhile isWordChar
    match cs.dropWhile isWordChar with
    | '!' :: rest => .ok ('!' :: word ++ ['!'], rest)
    | rest => if word.isEmpty then .ok (['!'], rest) else .error .badDirective
  | _ => .error .badDirective

/-- Reads the shorthand that a directive gives. -/
def readShorthand (cs : List Char) : Except Error (Token × List Char) := do
  let (handle, rest) ← readHandle (cs.dropWhile isSpace)
  match rest with
  | c :: _ =>
    if !isSpace c then throw .badDirective
    let (start, rest) ← readTagPartNonempty true (rest.dropWhile isSpace)
    if !endsWord rest then throw .badDirective
    return (.tagShorthand handle start, rest)
  | [] => throw .badDirective

/-- Reads a directive after its percent sign, with the rest of its line. -/
def readDirective (cs : List Char) : Except Error (Token × List Char) := do
  let name := String.ofList (cs.takeWhile isWordChar)
  let rest := cs.dropWhile isWordChar
  if !endsWord rest then throw .badDirective
  let (token, rest) ← match name with
    | "YAML" => readVersion rest
    | "TAG" => readShorthand rest
    | _ => .error .badDirective
  let rest := rest.dropWhile isSpace
  let rest := match rest with
    | '#' :: _ => rest.dropWhile fun c => !isBreak c
    | _ => rest
  if endsLine rest then return (token, rest.drop 1) else throw .badDirective

end Token

end Stencil.Yaml
