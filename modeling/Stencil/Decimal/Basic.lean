import Stencil.Precision

/-! # Decimals

A `Decimal` is a non-negative number `digits * 10 ^ exponent`.  It is what a numeral writes and
what a float is read from; `positional` writes it without an exponent.
-/

namespace Stencil

/-- The number `digits * 10 ^ exponent`. -/
structure Decimal where
  digits : Nat
  exponent : Int
deriving DecidableEq, Repr

namespace Decimal

/-- The single precision number nearest to a decimal, ties to even. -/
def toSingle (d : Decimal) : Float32 := .ofModel (.ofScientific d.digits d.exponent)

/-- The double precision number nearest to a decimal, ties to even. -/
def toDouble (d : Decimal) : Float := .ofModel (.ofScientific d.digits d.exponent)

/-- The decimal equal to `m * 2 ^ e`. -/
def ofBinary (m : Nat) (e : Int) : Decimal :=
  match e with
  | .ofNat k => ⟨m * Nat.pow 2 k, 0⟩
  | .negSucc k => ⟨m * Nat.pow 5 (k + 1), -(k + 1)⟩

/-- A number below `10 ^ places` written with exactly `places` digits. -/
def fractionDigits (places n : Nat) : List Char :=
  List.replicate (places - (Nat.toDigits 10 n).length) '0' ++ Nat.toDigits 10 n

/-- Writes a decimal with digits and at most one point.  A negative exponent says how many digits
follow the point; otherwise there is no point. -/
def positional (d : Decimal) : List Char :=
  match d.exponent with
  | .ofNat zeros => Nat.toDigits 10 d.digits ++ List.replicate zeros '0'
  | .negSucc k =>
    let unit := Nat.pow 10 (k + 1)
    Nat.toDigits 10 (d.digits / unit) ++ '.' :: fractionDigits (k + 1) (d.digits % unit)

end Decimal

end Stencil
