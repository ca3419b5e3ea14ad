import Stencil.Decimal.Fixed

/-! # Shortest decimals

The shortest decimal of a float is the one with the fewest digits that reads back as that float;
of two such decimals the nearer one is taken, and of two equally near the larger.

The search goes through the grids `10 ^ k`, from one coarser than the number to finer ones.  On
each grid only the two neighbours of the number can be nearest, and the first grid on which one of
them reads back has the fewest digits.
-/

namespace Stencil.Decimal

open Float.Model (UnpackedFloat)

/-- The fraction `num / den` equal to `m * 2 ^ e * 10 ^ (-k)`. -/
def onGrid (m : Nat) (e k : Int) : Nat × Nat :=
  (m * Nat.pow 2 e.toNat * Nat.pow 10 (-k).toNat, Nat.pow 2 (-e).toNat * Nat.pow 10 k.toNat)

/-- Of the two neighbours of `m * 2 ^ e` on the grid `10 ^ k`, the nearest that reads back. -/
def neighbour? (readsBack : Decimal → Bool) (m : Nat) (e k : Int) : Option Decimal :=
  let (num, den) := onGrid m e k
  let below : Decimal := ⟨num / den, k⟩
  let above : Decimal := ⟨num / den + 1, k⟩
  let nearest := if den ≤ 2 * (num % den) then [above, below] else [below, above]
  nearest.find? readsBack

/-- An exponent `k` with `m * 2 ^ e < 10 ^ k`. -/
def gridAbove (m : Nat) (e : Int) : Int :=
  let bits := (m.log2 : Int) + 1 + e
  if 0 ≤ bits then bits / 3 + 1 else bits * 3 / 10 + 1

/-- The shortest decimal for `m * 2 ^ e`.  Sixty grids reach below the last digit that any number
of single or double precision needs; the exact decimal stands behind them. -/
def shortest (readsBack : Decimal → Bool) (m : Nat) (e : Int) : Decimal :=
  ((List.range 60).findSome? fun (i : Nat) => neighbour? readsBack m e (gridAbove m e - (i : Int))).getD
    (ofBinary m e)

/-- A decoded value as its shortest decimal, written without an exponent. -/
def shortestChars (readsBack : Decimal → Bool) : UnpackedFloat → List Char
  | .notANumber => "NaN".toList
  | .infinity sign => signText sign ++ "inf".toList
  | .zero sign => signText sign ++ ['0']
  | .finite sign m e _ => signText sign ++ positional (shortest readsBack m e)

/-- A decimal reads back as `x`, signs apart, if reading it gives the magnitude of `x`. -/
def readsBackSingle (x : Float32) (d : Decimal) : Bool := d.toSingle.toBits == x.abs.toBits

/-- The double precision counterpart of `readsBackSingle`. -/
def readsBackDouble (x : Float) (d : Decimal) : Bool := d.toDouble.toBits == x.abs.toBits

/-- A single precision number written with the fewest digits. -/
def writeSingle (x : Float32) : List Char := shortestChars (readsBackSingle x) x.toModel.unpack

/-- A double precision number written with the fewest digits. -/
def writeDouble (x : Float) : List Char := shortestChars (readsBackDouble x) x.toModel.unpack

end Stencil.Decimal
