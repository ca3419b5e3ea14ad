import Stencil.Decimal.Basic

/-! # Numerals

The texts that read as a float: an optional sign, then `inf`, `infinity` or `nan` in any case, or
digits with at most one point among, before or after them and an optional exponent.  A numeral
has at least one digit and no blank.  Its value is the exact decimal, rounded once.
-/

namespace Stencil

/-- What a numeral denotes, before rounding. -/
inductive Numeral where
  | notANumber
  | infinity (negative : Bool)
  | decimal (negative : Bool) (value : Decimal)
deriving DecidableEq, Repr

namespace Numeral

/-- The digits of an exponent.  Once the value has reached 65536 no further digit is looked at:
no numeral that fits in memory tells such exponents apart. -/
def exponentValue (digits : List Char) : Nat :=
  digits.foldl (fun value c => if value < 65536 then 10 * value + (c.toNat - '0'.toNat) else value) 0

/-- An exponent part: nothing, or `e` or `E`, an optional sign and digits up to the end. -/
def readExponent? : List Char → Option Int
  | [] => some 0
  | mark :: rest =>
    if mark.toLower = 'e' then
      let (negative, digits) := match rest with
        | '-' :: ds => (true, ds)
        | '+' :: ds => (false, ds)
        | ds => (false, ds)
      if digits.isEmpty || !digits.all Char.isDigit then none
      else if negative then some (-(exponentValue digits : Int))
      else some (exponentValue digits)
    else none

/-- The digits after a point, if there is one, and what follows them. -/
def readFraction : List Char → List Char × List Char
  | '.' :: rest => (rest.takeWhile Char.isDigit, rest.dropWhile Char.isDigit)
  | rest => ([], rest)

/-- A decimal without sign. -/
def readDecimal? (cs : List Char) : Option Decimal :=
  let whole := cs.takeWhile Char.isDigit
  let (fraction, rest) := readFraction (cs.dropWhile Char.isDigit)
  if whole.isEmpty && fraction.isEmpty then none
  else (readExponent? rest).map fun e =>
    ⟨Nat.ofDigitChars 10 (whole ++ fraction) 0, e - fraction.length⟩

/-- A numeral without sign. -/
def readUnsigned? (negative : Bool) (cs : List Char) : Option Numeral :=
  match readDecimal? cs with
  | some d => some (.decimal negative d)
  | none =>
    let word := cs.map Char.toLower
    if word = "inf".toList || word = "infinity".toList then some (.infinity negative)
    else if word = "nan".toList then some .notANumber
    else none

/-- Reads a whole text as a numeral. -/
def read? : List Char → Option Numeral
  | '-' :: cs => readUnsigned? true cs
  | '+' :: cs => readUnsigned? false cs
  | cs => readUnsigned? false cs

/-- The finite single precision number that a text denotes.  A decimal beyond the range rounds to
an infinity and so denotes none. -/
def readSingle? (cs : List Char) : Option Float32 :=
  match read? cs with
  | some (.decimal negative d) =>
    let x := if negative then -d.toSingle else d.toSingle
    if x.isFinite then some x else none
  | _ => none

/-- The finite double precision number that a text denotes. -/
def readDouble? (cs : List Char) : Option Float :=
  match read? cs with
  | some (.decimal negative d) =>
    let x := if negative then -d.toDouble else d.toDouble
    if x.isFinite then some x else none
  | _ => none

end Numeral

end Stencil
