import Stencil.Kernel.Geometry
import Stencil.Kernel.Normalization
import Stencil.Text.Blank

/-! # Stock kernels

Kernels with a name: the identity, two blurs, and three filters that bring out edges.  The blurs
have any odd size; an even size is raised to the next odd one.
-/

namespace Stencil.Kernel

open Precision (ofInt ofNat)

/-- A kernel of three by three weights. -/
def threeByThree (weights : List Float32) : Kernel := ⟨weights, 3, 3⟩

/-- Leaves an image as it is. -/
def identity : Kernel := threeByThree ([0, 0, 0, 0, 1, 0, 0, 0, 0].map ofInt)

/-- The least odd number that is no less than a size. -/
def oddSide (size : Nat) : Nat := 2 * (size / 2) + 1

/-- The number of weights that memory cannot address, `2 ^ 61`. -/
def weightLimit : Nat := 0x2000000000000000

/-- The number of weights of a square kernel, if its weights fit in memory. -/
def squareCount (side : Nat) : Except Fault Nat := do
  let count ← Word.product side side
  if count < weightLimit then return count else throw .capacity

/-- Averages a square. -/
def boxBlur (size : Nat) : Except Fault Kernel := do
  let side := oddSide size
  let count ← squareCount side
  return ⟨List.replicate count (ofInt 1 / ofNat count), side, side⟩

/-- The weight of a bell curve at an offset, before normalization. -/
def bell (twoSigmaSquared : Float32) (offset : Offset) : Float32 :=
  let squaredDistance := offset.x * offset.x + offset.y * offset.y
  (-squaredDistance / twoSigmaSquared).exp

/-- A normalized bell curve of standard deviation `sigma`. -/
def gaussian (size : Nat) (sigma : Float32) : Except Fault Kernel := do
  let side := oddSide size
  let count ← squareCount side
  let twoSigmaSquared := ofInt 2 * sigma * sigma
  let weights ← (List.range count).mapM fun index =>
    (offsetOf index side side).map (bell twoSigmaSquared)
  return normalized ⟨weights, side, side⟩

/-- Raises the contrast with the four neighbours. -/
def sharpen (amount : Float32) : Kernel :=
  let zero := ofInt 0
  let arm := -amount
  threeByThree [zero, arm, zero, arm, ofInt 1 + ofInt 4 * amount, arm, zero, arm, zero]

/-- The difference from the four neighbours. -/
def edgeDetect : Kernel := threeByThree ([0, -1, 0, -1, 4, -1, 0, -1, 0].map ofInt)

/-- Lights an image from one corner. -/
def emboss : Kernel := threeByThree ([-2, -1, 0, -1, 1, 1, 0, 1, 2].map ofInt)

/-- The kernels that can be asked for by name. -/
inductive Stock where
  | identity
  | box
  | gaussian
  | sharpen
  | edge
  | emboss
deriving DecidableEq, Repr

namespace Stock

/-- All stock kernels, in the order in which they are listed. -/
def all : List Stock := [.identity, .box, .gaussian, .sharpen, .edge, .emboss]

/-- The name of a stock kernel. -/
def name : Stock → String
  | .identity => "identity"
  | .box => "box"
  | .gaussian => "gaussian"
  | .sharpen => "sharpen"
  | .edge => "edge"
  | .emboss => "emboss"

/-- The stock kernel with a name or another usual name, blanks around it and case apart. -/
def ofName? (s : String) : Option Stock :=
  match String.ofList (Text.lower (Text.trim s.toList)) with
  | "identity" => some .identity
  | "box" | "box_blur" | "blur" => some .box
  | "gaussian" => some .gaussian
  | "sharpen" => some .sharpen
  | "edge" | "edge_detect" | "laplacian" => some .edge
  | "emboss" => some .emboss
  | _ => none

/-- The kernel itself. -/
def kernel : Stock → Except Fault Kernel
  | .identity => .ok Kernel.identity
  | .box => boxBlur 3
  | .gaussian => Kernel.gaussian 5 (ofInt 1)
  | .sharpen => .ok (Kernel.sharpen (ofInt 1))
  | .edge => .ok edgeDetect
  | .emboss => .ok Kernel.emboss

end Stock

/-- Every stock kernel is found by its own name. -/
theorem Stock.ofName?_name (stock : Stock) : ofName? stock.name = some stock := by
  cases stock <;> decide

/-- The side of a blur is odd. -/
theorem oddSide_odd (size : Nat) : oddSide size % 2 = 1 := by
  unfold oddSide
  omega

/-- The side of a blur is no less than the size that is asked for. -/
theorem le_oddSide (size : Nat) : size ≤ oddSide size ∧ 1 ≤ oddSide size := by
  unfold oddSide
  omega

end Stencil.Kernel
