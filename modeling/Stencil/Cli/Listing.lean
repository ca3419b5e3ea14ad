import Stencil.Kernel.Stock
import Stencil.Settings
import Stencil.Text.Column

/-! # Listings

The tables that the program prints: a kernel with its taps, the stock kernels, and the settings.
-/

namespace Stencil.Cli

open Text (alignLeft alignRight)

/-- The text of a natural number. -/
def natText (n : Nat) : String := String.ofList (Nat.toDigits 10 n)

/-- A line of text. -/
def line (s : String) : String := s ++ "\n"

/-- The text of a number with the fewest digits. -/
def shortText (x : Float32) : String := String.ofList (Decimal.writeSingle x)

/-! ## A kernel -/

/-- A weight as a cell of the grid. -/
def cell (weight : Float32) : String :=
  alignRight 10 (Decimal.fixed Dialect.constantPlaces weight)

/-- The rows of a list of weights; the last may be shorter. -/
def rows (width : Nat) : Nat → List Float32 → List (List Float32)
  | 0, _ => []
  | count + 1, weights =>
    if weights.isEmpty then []
    else weights.take width :: rows width count (weights.drop width)

/-- The weights as a grid, a row per line. -/
def grid (k : Kernel) : String :=
  String.join ((rows (max k.width 1) k.weights.length k.weights).map fun row =>
    line (" ".intercalate (row.map cell)))

/-- The heading of the table of taps. -/
def tapHeading : String :=
  line (alignRight 5 "tap" ++ "  " ++ alignRight 12 "weight" ++ "  " ++ alignRight 6 "dx" ++ "  "
    ++ alignRight 6 "dy")

/-- A tap as a line of the table. -/
def tapLine (tap : Kernel.Tap) : String :=
  line (alignRight 5 (natText tap.index) ++ "  "
    ++ alignRight 12 (Decimal.fixed Dialect.constantPlaces tap.weight) ++ "  "
    ++ alignRight 6 (Decimal.fixed Dialect.offsetPlaces tap.offset.x) ++ "  "
    ++ alignRight 6 (Decimal.fixed Dialect.offsetPlaces tap.offset.y))

/-- Says how the weights are normalized. -/
def normalizationLine (k : Kernel) : String :=
  match Kernel.divisor? k.weights with
  | some d => line ("Normalized by " ++ String.ofList (Decimal.writeDouble d))
  | none => line "Normalization skipped (zero divisor)"

/-- The size and the number of weights of a kernel as it was written. -/
def sizeLine (k : Kernel) : String :=
  line s!"Kernel: {natText k.width}x{natText k.height} ({natText k.weights.length} taps)"

/-- The sum of a kernel as it was written. -/
def sumLine (k : Kernel) : String := line ("Sum:    " ++ shortText k.sum)

/-- The central cell of a kernel. -/
def centerLine (k : Kernel) : String :=
  line s!"Center: column {natText k.center.column}, row {natText k.center.row}"

/-- The lines about a matrix, in front of the grid. -/
def headLines (raw k : Kernel) (normalize verbose : Bool) : List String :=
  [sizeLine raw, sumLine raw] ++ (if normalize then [normalizationLine raw] else [])
    ++ (if verbose then [centerLine k] else [])

/-- All that is shown of a kernel, in the pieces that are printed one by one.  A tap is computed when
it is its turn. -/
def kernelPieces (raw : Kernel) (normalize verbose : Bool) : List (Except Fault String) :=
  let k := if normalize then raw.normalized else raw
  (headLines raw k normalize verbose ++ [line "", grid k, line "", tapHeading]).map .ok
    ++ k.weights.zipIdx.map fun (weight, index) => (k.tap index weight).map tapLine

/-! ## Stock kernels and settings -/

/-- A stock kernel as a line. -/
def stockLine (verbose : Bool) (stock : Kernel.Stock) : Except Fault String := do
  let k ← stock.kernel
  let details := if verbose then
      s!"{natText k.width}x{natText k.height}  sum=" ++ alignLeft 8 (Decimal.fixed 4 k.sum) ++ " "
    else ""
  return line (alignLeft 10 stock.name ++ " " ++ details ++ k.text)

/-- All stock kernels, line by line. -/
def stockLines (verbose : Bool) : List (Except Fault String) :=
  Kernel.Stock.all.map (stockLine verbose)

/-- A setting with its value and what it is for. -/
def settingLines (s : Settings) (key : Settings.Key) : String :=
  line (alignLeft 10 key.name ++ s!" [default: {s.valueText key}]")
    ++ line (alignLeft 10 "" ++ " " ++ key.description)

/-- All settings with the values that they have. -/
def settingListing (s : Settings) : String :=
  String.join (Settings.Key.all.map (settingLines s))

end Stencil.Cli
