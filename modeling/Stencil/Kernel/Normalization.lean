import Stencil.Decimal.Basic
import Stencil.Kernel.Basic

/-! # Normalization

Normalizing divides every weight by the sum of all weights, so that the filter keeps the brightness
of the image.  A filter whose weights cancel, such as an edge detector, is divided by the sum of its
positive weights instead; if that is zero too the weights stay as they are.

Sums are taken in double precision, from the first weight to the last, and start at minus zero.
Each weight is divided in double precision and then rounded to single precision.
-/

namespace Stencil.Kernel

open Precision (widen narrow)

/-- The magnitude below which a sum counts as cancelled. -/
def zeroSumEpsilon : Float := Decimal.toDouble ⟨1, -8⟩

/-- The sum of weights in double precision. -/
def wideSum (weights : List Float32) : Float :=
  weights.foldl (fun total w => total + widen w) Precision.negativeZeroWide

/-- The weights above zero. -/
def positiveWeights (weights : List Float32) : List Float32 :=
  weights.filter fun w => Precision.ofInt 0 < w

/-- What the weights are summed to before division: all of them, or the positive ones if all of
them cancel. -/
def scale (weights : List Float32) : Float :=
  let total := wideSum weights
  if total.abs < zeroSumEpsilon then wideSum (positiveWeights weights) else total

/-- The divisor of a normalization, if it is not zero. -/
def divisor? (weights : List Float32) : Option Float :=
  let total := scale weights
  if total == Precision.zeroWide then none else some total

/-- The weights divided by their divisor. -/
def normalizeWeights (weights : List Float32) : List Float32 :=
  match divisor? weights with
  | none => weights
  | some d => weights.map fun w => narrow (widen w / d)

/-- The kernel with normalized weights. -/
def normalized (k : Kernel) : Kernel := { k with weights := normalizeWeights k.weights }

@[simp] theorem normalizeWeights_length (weights : List Float32) :
    (normalizeWeights weights).length = weights.length := by
  unfold normalizeWeights
  split <;> simp

@[simp] theorem normalized_width (k : Kernel) : k.normalized.width = k.width := rfl

@[simp] theorem normalized_height (k : Kernel) : k.normalized.height = k.height := rfl

@[simp] theorem length_normalized (k : Kernel) :
    k.normalized.weights.length = k.weights.length :=
  normalizeWeights_length k.weights

/-- Normalizing keeps a kernel consistent. -/
@[simp] theorem isConsistent_normalized (k : Kernel) :
    k.normalized.isConsistent = k.isConsistent := by
  simp [isConsistent, normalized]

end Stencil.Kernel
