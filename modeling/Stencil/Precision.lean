import Stencil.Word

/-! # Precision

Weights and samples have single precision; sums that decide the scale of a kernel are taken in
double precision.  The conversions are given on the decoded value `± m * 2 ^ e`, so their meaning
does not hang on a primitive: widening is exact, narrowing and `ofInt` round to the nearest value
with ties to the even one.
-/

namespace Stencil.Precision

open Float.Model (Format UnpackedFloat)

/-- A decoded value rounded to a format.  Zeros, infinities and NaN exist in every format. -/
def reround (format : Format) : UnpackedFloat → UnpackedFloat
  | .finite sign m e _ => .round format sign m e
  | special => special

/-- The double precision value of a single precision number. -/
def widen (x : Float32) : Float :=
  .ofModel (.pack (reround .binary64 x.toModel.unpack))

/-- The single precision number nearest to a double precision one; overflow gives an infinity. -/
def narrow (x : Float) : Float32 :=
  .ofModel (.pack (reround .binary32 x.toModel.unpack))

/-- The single precision number nearest to an integer. -/
def ofInt (n : Int) : Float32 := .ofModel (.ofInt n)

/-- The single precision number nearest to a natural number. -/
def ofNat (n : Nat) : Float32 := ofInt n

/-- The integer part of a number, taken toward zero and limited to a signed word; NaN gives 0. -/
def toInt (x : Float32) : Int :=
  let lowest := -Word.signedLimit
  let highest := Word.signedLimit - 1
  max lowest (min highest (x.toModel.unpack.toInt lowest highest))

/-- The single precision zero with a minus sign, from which sums start. -/
def negativeZero : Float32 := Float32.ofBits 0x80000000

/-- The double precision zero. -/
def zeroWide : Float := Float.ofBits 0

/-- The double precision zero with a minus sign, from which sums start. -/
def negativeZeroWide : Float := Float.ofBits 0x8000000000000000

end Stencil.Precision
