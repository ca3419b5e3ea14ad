import Stencil.Decimal.Shortest

/-! # Ramps

A ramp is a square matrix whose weights count from -3 to 3 over and over, row by row.  It is a
kernel of any size whose weights are easy to foresee.
-/

namespace Stencil.Kernel

/-- The weight of a ramp at an index. -/
def rampWeight (index : Nat) : Float32 :=
  Precision.ofNat (index % 7) - Precision.ofInt 3

/-- A row of a ramp of side `n`. -/
def rampRow (n row : Nat) : List Char :=
  [','].intercalate ((List.range n).map fun column =>
    Decimal.writeSingle (rampWeight (row * n + column)))

/-- The ramp of side `n` in matrix notation. -/
def rampText (n : Nat) : String :=
  String.ofList ([';'].intercalate ((List.range n).map (rampRow n)))

end Stencil.Kernel
