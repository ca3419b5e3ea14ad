import Stencil.Yaml.Value

/-! # Written scalars

How a text is written as the value of a key at the left margin.  A text that would be read as
something else than a text is quoted, one with line feeds is written as a literal block, and any
other is plain as long as a plain scalar can hold it.  A style that cannot hold the text gives way
to one that can; double quotes hold every text.
-/

namespace Stencil.Yaml.Writer

/-- Whether a character ends a line for a writer. -/
def breaksLine (c : Char) : Bool := isBreak c || c == '\r' || c == '\u0085'

/-- Whether a character is a blank or ends a line or a text. -/
def separates (c : Char) : Bool := isSpace c || breaksLine c || c == '\x00'

/-- Whether a character is written as it is.  Control characters other than the line feed, the byte
order mark and the two last numbers of the basic plane are not. -/
def isShown (c : Char) : Bool :=
  let n := c.toNat
  n == 0xa || (0x20 ≤ n && n ≤ 0x7e) || (0xa0 ≤ n && n ≠ 0xfeff && n ≠ 0xfffe && n ≠ 0xffff)

/-- The characters that cannot start a plain scalar. -/
def isIndicator (c : Char) : Bool :=
  ['#', ',', '[', ']', '\x7b', '\x7d', '&', '*', '!', '|', '>', '\x27', '\x22', '%', '@',
    '\x60'].contains c

/-- Whether the rest of a text begins with a blank or is over. -/
def blankFollows : List Char → Bool
  | [] => true
  | c :: _ => separates c

/-- Whether a text behind its first character holds `: ` or ` #`, which end a plain scalar. -/
def hasInnerIndicator (previous : Char) : List Char → Bool
  | [] => false
  | c :: rest =>
    (c == ':' && blankFollows rest) || (c == '#' && separates previous) || hasInnerIndicator c rest

/-- Whether a plain scalar cannot hold a text because of its indicators. -/
def hasIndicator : List Char → Bool
  | [] => false
  | c :: rest =>
    "---".toList.isPrefixOf (c :: rest) || "...".toList.isPrefixOf (c :: rest) || isIndicator c
      || ((c == '?' || c == ':' || c == '-') && blankFollows rest) || hasInnerIndicator c rest

/-- Whether two neighbouring characters pass the tests. -/
def hasPair (first second : Char → Bool) (cs : List Char) : Bool :=
  (cs.zip (cs.drop 1)).any fun (a, b) => first a && second b

/-- Whether a text passes a test at one of its ends. -/
def hasEnd (test : Char → Bool) (cs : List Char) : Bool := cs.head?.any test || cs.getLast?.any test

/-- Whether only double quotes hold a text: it has a character that is not shown, or a space
before a line break. -/
def needsEscapes (cs : List Char) : Bool := !cs.all isShown || hasPair (· == ' ') breaksLine cs

/-- Whether single quotes hold a text. -/
def fitsSingle (cs : List Char) : Bool :=
  !needsEscapes cs && !hasPair breaksLine (· == ' ') cs

/-- Whether a plain scalar holds a text. -/
def fitsPlain (cs : List Char) : Bool :=
  fitsSingle cs && !hasEnd (· == ' ') cs && !cs.any breaksLine && !hasIndicator cs

/-- Whether a literal block holds a text. -/
def fitsLiteral (cs : List Char) : Bool := !needsEscapes cs && !(cs.getLast?.any (· == ' '))

/-! ## Texts that look like something else -/

/-- The value of a digit in a radix. -/
def digitIn? (radix : Nat) (c : Char) : Option Nat := (hexDigit? c).filter (· < radix)

/-- The value of digits in a radix. -/
def natIn? (radix : Nat) : List Char → Option Nat
  | [] => none
  | cs => cs.foldlM (fun value c => (digitIn? radix c).map (value * radix + ·)) 0

/-- The value of a number with a radix in front. -/
def radixNumber? : List Char → Option Nat
  | '0' :: 'x' :: digits => natIn? 16 digits
  | '0' :: 'o' :: digits => natIn? 8 digits
  | '0' :: 'b' :: digits => natIn? 2 digits
  | _ => none

/-- Whether a text is an integer with a radix in front that fits in 128 bits. -/
def isRadixNumber : List Char → Bool
  | '-' :: cs => (radixNumber? cs).any (· ≤ 0x80000000000000000000000000000000)
  | '+' :: cs => (radixNumber? cs).any (· ≤ 0xffffffffffffffffffffffffffffffff)
  | cs => (radixNumber? cs).any (· ≤ 0xffffffffffffffffffffffffffffffff)

/-- Whether a text is digits with a zero in front. -/
def isPaddedNumber (cs : List Char) : Bool :=
  let digits := match cs with
    | '-' :: ds => ds
    | '+' :: ds => ds
    | ds => ds
  match digits with
  | '0' :: d :: ds => (d :: ds).all Char.isDigit
  | _ => false

/-- Whether a plain scalar with this text would stand for something else than a text. -/
def looksTyped (cs : List Char) : Bool :=
  cs.isEmpty || Node.isNullWord cs || (Node.flagOfWord? cs).isSome || isRadixNumber cs
    || isPaddedNumber cs || (Node.numberOfWord? cs).isSome

/-- The style in which a text is written. -/
def style (cs : List Char) : Style :=
  if cs.contains '\n' then (if fitsLiteral cs then .literal else .doubleQuoted)
  else if !looksTyped cs && fitsPlain cs then .plain
  else if fitsSingle cs then .singleQuoted
  else .doubleQuoted

/-! ## The styles -/

/-- The spaces before every line of a scalar. -/
def margin : List Char := [' ', ' ']

/-- A text with the margin before every line but, unless `atBreak`, the first. -/
def indented (atBreak : Bool) (show_ : Char → List Char) : List Char → List Char
  | [] => []
  | c :: rest =>
    if breaksLine c then c :: indented true show_ rest
    else (if atBreak then margin else []) ++ show_ c ++ indented false show_ rest

/-- A text in single quotes. -/
def singleQuoted (cs : List Char) : List Char :=
  let body := indented false (fun c => if c = '\x27' then ['\x27', '\x27'] else [c]) cs
  let closing := if cs.getLast?.any breaksLine then margin else []
  '\x27' :: body ++ closing ++ ['\x27']

/-- A number as hexadecimal digits, filled up with zeros. -/
def hexDigits (count n : Nat) : List Char :=
  let digits := (Nat.toDigits 16 n).map Char.toUpper
  List.replicate (count - digits.length) '0' ++ digits

/-- A character as it stands in double quotes. -/
def escaped (c : Char) : List Char :=
  let n := c.toNat
  match n with
  | 0x0 => ['\x5c', '0']
  | 0x7 => ['\x5c', 'a']
  | 0x8 => ['\x5c', 'b']
  | 0x9 => ['\x5c', 't']
  | 0xa => ['\x5c', 'n']
  | 0xb => ['\x5c', 'v']
  | 0xc => ['\x5c', 'f']
  | 0xd => ['\x5c', 'r']
  | 0x1b => ['\x5c', 'e']
  | 0x22 => ['\x5c', '\x22']
  | 0x5c => ['\x5c', '\x5c']
  | 0x85 => ['\x5c', 'N']
  | 0x2028 => ['\x5c', 'L']
  | 0x2029 => ['\x5c', 'P']
  | _ =>
    if isShown c then [c]
    else if n ≤ 0xff then '\x5c' :: 'x' :: hexDigits 2 n
    else '\x5c' :: 'u' :: hexDigits 4 n

/-- A text in double quotes. -/
def doubleQuoted (cs : List Char) : List Char := '\x22' :: cs.flatMap escaped ++ ['\x22']

/-- The indicators of a literal block: the indentation if the text itself starts with a space or a
break, and how the breaks at its end are to be read. -/
def literalHeader (cs : List Char) : List Char :=
  let indent := if cs.head?.any fun c => c == ' ' || breaksLine c then ['2'] else []
  let chomping := match cs.reverse with
    | last :: rest =>
      if !breaksLine last then ['-']
      else if rest.head?.all breaksLine then ['+']
      else []
    | [] => ['-']
  '|' :: indent ++ chomping

/-- A text as a literal block. -/
def literal (cs : List Char) : List Char :=
  literalHeader cs ++ '\n' :: indented true (fun c => [c]) cs

/-- A text as a scalar, up to the start of the next line. -/
def scalarLine (cs : List Char) : List Char :=
  match style cs with
  | .literal | .folded => literal cs ++ (if cs.getLast?.any breaksLine then [] else ['\n'])
  | .plain => cs ++ ['\n']
  | .singleQuoted => singleQuoted cs ++ ['\n']
  | .doubleQuoted => doubleQuoted cs ++ ['\n']

end Stencil.Yaml.Writer
