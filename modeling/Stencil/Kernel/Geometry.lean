import Stencil.Kernel.Basic

/-! # Geometry

Each weight of a kernel is applied to a pixel at some displacement from the one that is computed.
The displacement is measured from the central cell, to the right and upwards, so the first row of a
kernel reads from above.  A kernel with an even side has its centre before the middle.

Indices and dimensions are unsigned words, displacements signed ones: a coordinate is read as a
signed word, and differences are checked.  When there is a displacement it is the exact one.
-/

namespace Stencil.Kernel

/-- A cell of a kernel. -/
structure Cell where
  column : Nat
  row : Nat
deriving DecidableEq, Repr

/-- A distance in pixels, to the right and upwards. -/
structure Displacement where
  right : Int
  up : Int
deriving DecidableEq, Repr

/-- A displacement as the numbers that scale a texture step. -/
structure Offset where
  x : Float32
  y : Float32
deriving DecidableEq

/-- A weight with its index and its offset. -/
structure Tap where
  index : Nat
  weight : Float32
  offset : Offset
deriving DecidableEq

/-- The central cell of a rectangle. -/
def centerOf (width height : Nat) : Cell := ⟨(width - 1) / 2, (height - 1) / 2⟩

/-- The displacement of the weight with the given index. -/
def displacement (index width height : Nat) : Except Fault Displacement := do
  if width = 0 then throw .zeroWidth
  let center := centerOf width height
  let column := Word.toSigned (index % width)
  let row := Word.toSigned (index / width)
  let right ← Word.checked (column - Word.toSigned center.column)
  let down ← Word.checked (row - Word.toSigned center.row)
  let up ← Word.checked (-down)
  return ⟨right, up⟩

/-- A displacement in single precision. -/
def Displacement.toOffset (d : Displacement) : Offset :=
  ⟨Precision.ofInt d.right, Precision.ofInt d.up⟩

/-- The offset of the weight with the given index. -/
def offsetOf (index width height : Nat) : Except Fault Offset :=
  (displacement index width height).map Displacement.toOffset

/-- The central cell. -/
def center (k : Kernel) : Cell := centerOf k.width k.height

/-- The offset of the weight with the given index. -/
def offset (k : Kernel) (index : Nat) : Except Fault Offset := offsetOf index k.width k.height

/-- The tap of a weight. -/
def tap (k : Kernel) (index : Nat) (weight : Float32) : Except Fault Tap :=
  (k.offset index).map fun offset => ⟨index, weight, offset⟩

/-- All taps in row-major order. -/
def taps (k : Kernel) : Except Fault (List Tap) :=
  k.weights.zipIdx.mapM fun (weight, index) => k.tap index weight

end Stencil.Kernel
