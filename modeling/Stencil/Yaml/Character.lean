import Stencil.Yaml.Error

/-! # Characters of YAML documents

Which characters a document may hold, and the classes that tokens are made of.  The line breaks of
a document are unified before it is read: a carriage return, the pair of carriage return and line
feed, and a next-line character all become a line feed, since every scalar takes them as one.
-/

namespace Stencil.Yaml

/-- Whether a document may hold the character. -/
def isAllowed (c : Char) : Bool :=
  let n := c.toNat
  n == 0x9 || n == 0xa || n == 0xd || (0x20 ≤ n && n ≤ 0x7e) || n == 0x85
    || (0xa0 ≤ n && n ≤ 0xd7ff) || (0xe000 ≤ n && n ≤ 0xfffd) || 0x10000 ≤ n

/-- The byte order mark, which may start a line. -/
def byteOrderMark : Char := '\ufeff'

/-- Writes every line break of one or two characters as a line feed, the two Unicode separators
apart. -/
def unifyBreaks : List Char → List Char
  | [] => []
  | '\r' :: '\n' :: cs => '\n' :: unifyBreaks cs
  | c :: cs => (if c = '\r' ∨ c = '\u0085' then '\n' else c) :: unifyBreaks cs

/-- Whether a character ends a line. -/
def isBreak (c : Char) : Bool := c == '\n' || c == '\u2028' || c == '\u2029'

/-- Whether a character is a space or a tab. -/
def isSpace (c : Char) : Bool := c == ' ' || c == '\t'

/-- Whether a text ends here or goes on with a space, a tab or a line break. -/
def endsWord : List Char → Bool
  | [] => true
  | c :: _ => isSpace c || isBreak c

/-- Whether a text is at the end of its line. -/
def endsLine : List Char → Bool
  | [] => true
  | c :: _ => isBreak c

/-- Letters, digits, `_` and `-`, of which anchors and handles are made. -/
def isWordChar (c : Char) : Bool := c.isAlphanum || c == '_' || c == '-'

/-- The brackets and the comma of flow collections. -/
def isFlowIndicator (c : Char) : Bool :=
  c == ',' || c == '[' || c == ']' || c == '\x7b' || c == '\x7d'

/-- Whether a text starts with the mark before or after a document. -/
def atDocumentMark : List Char → Bool
  | a :: b :: c :: rest => a == b && b == c && (a == '-' || a == '.') && endsWord rest
  | _ => false

/-- The value of a hexadecimal digit. -/
def hexDigit? (c : Char) : Option Nat :=
  if '0' ≤ c ∧ c ≤ '9' then some (c.toNat - '0'.toNat)
  else if 'a' ≤ c ∧ c ≤ 'f' then some (c.toNat - 'a'.toNat + 10)
  else if 'A' ≤ c ∧ c ≤ 'F' then some (c.toNat - 'A'.toNat + 10)
  else none

end Stencil.Yaml
