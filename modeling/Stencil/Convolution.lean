import Stencil.Kernel.Geometry

/-! # Convolution

Applies a kernel to an image on the processor.  An image is a rectangle of pixels with the same
number of channels each; its samples are listed pixel by pixel in row-major order, and rows are
counted upwards as texture coordinates are.  A pixel outside the image has the value of the nearest
one inside.

The pixels are computed one after the other, row by row.  For each of them the taps are gone through
once, and what a tap reads is added to one sum for every channel; then the sums are copied to their
place in the result.  The sums are kept from pixel to pixel, so they are cleared before each.
-/

namespace Stencil

/-- An image: its samples and its dimensions. -/
structure Image where
  samples : Array Float32
  width : Nat
  height : Nat
  channels : Nat

namespace Convolution

open Kernel (Displacement)

/-- A tap as the loop over pixels uses it: whole steps, and the weight. -/
structure Step where
  shift : Displacement
  weight : Float32
deriving DecidableEq

/-- A tap with its offset taken back to whole steps. -/
def Step.ofTap (tap : Kernel.Tap) : Step :=
  ⟨⟨Precision.toInt tap.offset.x, Precision.toInt tap.offset.y⟩, tap.weight⟩

/-- A coordinate moved by a shift and kept inside `0, …, extent - 1`. -/
def clampedMove (position : Nat) (shift : Int) (extent : Nat) : Except Fault Nat := do
  let moved ← Word.checked (Word.toSigned position + shift)
  let last ← Word.checked (Word.toSigned extent - 1)
  if last < 0 then throw .emptyInterval
  return (max 0 (min moved last)).toNat

/-- The position of the first sample of a pixel among the samples of an image. -/
def pixelStart (width channels x y : Nat) : Except Fault Nat := do
  let above ← Word.product y width
  let pixel ← Word.sum above x
  Word.product pixel channels

/-- The position of the first sample that a step reads for the pixel at `(x, y)`. -/
def sourceStart (image : Image) (x y : Nat) (step : Step) : Except Fault Nat := do
  let sourceX ← clampedMove x step.shift.right image.width
  let sourceY ← clampedMove y step.shift.up image.height
  pixelStart image.width image.channels sourceX sourceY

/-- The sample at a position. -/
def sampleAt (image : Image) (index : Nat) : Except Fault Float32 :=
  match image.samples[index]? with
  | some value => .ok value
  | none => .error .outOfRange

/-- Adds the weighted samples of a pixel to the sums of its channels, from the given channel on. -/
def addPixel (image : Image) (start : Nat) (weight : Float32) :
    Nat → List Float32 → Except Fault (List Float32)
  | _, [] => .ok []
  | channel, total :: totals => do
    let index ← Word.sum start channel
    let value ← sampleAt image index
    let others ← addPixel image start weight (channel + 1) totals
    return (total + value * weight) :: others

/-- Adds what a step reads for the pixel at `(x, y)` to the sums of the channels. -/
def addStep (image : Image) (x y : Nat) (sums : List Float32) (step : Step) :
    Except Fault (List Float32) := do
  let start ← sourceStart image x y step
  addPixel image start step.weight 0 sums

/-- Writes values from a position on. -/
def writeFrom (samples : Array Float32) : Nat → List Float32 → Array Float32
  | _, [] => samples
  | index, value :: values => writeFrom (samples.setIfInBounds index value) (index + 1) values

/-- Writes values from a position on, if there is room for them. -/
def copyInto (samples : Array Float32) (start : Nat) (values : List Float32) :
    Except Fault (Array Float32) := do
  let stop ← Word.sum start values.length
  if stop ≤ samples.size then return writeFrom samples start values else throw .outOfRange

/-- What the loops over the pixels change: the samples of the result, and the sums of the channels. -/
structure Progress where
  result : Array Float32
  sums : List Float32

/-- Computes the pixel at `(x, y)`. -/
def filterPixel (steps : List Step) (image : Image) (y x : Nat) (progress : Progress) :
    Except Fault Progress := do
  -- The sums are those of the pixel before
  let cleared := progress.sums.map fun _ => Precision.ofInt 0
  let sums ← steps.foldlM (addStep image x y) cleared
  let start ← pixelStart image.width image.channels x y
  let result ← copyInto progress.result start sums
  return ⟨result, sums⟩

/-- Computes all pixels, row by row. -/
def filterImage (steps : List Step) (image : Image) (count : Nat) : Except Fault Progress :=
  (List.range image.height).foldlM
    (fun progress y =>
      (List.range image.width).foldlM (fun progress x => filterPixel steps image y x progress)
        progress)
    ⟨Array.replicate count (Precision.ofInt 0), List.replicate image.channels (Precision.ofInt 0)⟩

/-- The number of samples that the dimensions of an image ask for. -/
def sampleCount (image : Image) : Except Fault Nat := do
  let pixels ← Word.product image.width image.height
  Word.product pixels image.channels

end Convolution

open Stencil.Convolution in
/-- The image filtered by a kernel, as the list of its samples. -/
def Kernel.convolve (k : Kernel) (image : Image) :
    Except (Failure Kernel.Error) (List Float32) := do
  if !k.isConsistent then
    throw (.refused (.sizeMismatch k.width k.height k.weights.length))
  if k.weights.isEmpty then
    throw (.refused .empty)
  let count ← Failure.ofFaulty (sampleCount image)
  if image.samples.size ≠ count ∨ count = 0 then
    throw (.refused (.sampleCount count image.samples.size))
  let taps ← Failure.ofFaulty k.taps
  let progress ← Failure.ofFaulty (filterImage (taps.map Step.ofTap) image count)
  return progress.result.toList

end Stencil
