import Stencil.Decimal.Shortest
import Stencil.Text.Quoted
import Stencil.Word

/-! # Kernels

A kernel is a rectangle of weights in row-major order.  The dimensions are plain fields: a kernel
whose weights do not fill its rectangle can be written down, and every use of a kernel says what it
does with such a one.  `Kernel.ofWeights` admits only rectangles that are filled.
-/

namespace Stencil

/-- A rectangle of convolution weights, row by row. -/
structure Kernel where
  weights : List Float32
  width : Nat
  height : Nat
deriving DecidableEq

namespace Kernel

/-- What can be wrong with a kernel, its text, or an image it is applied to. -/
inductive Error where
  /-- A row of the text has another number of elements than the first row. -/
  | raggedRow (row found expected : Nat)
  /-- An element of the text is not a finite number. -/
  | notANumber (row column : Nat) (token : String)
  /-- The weights do not fill the rectangle. -/
  | sizeMismatch (width height count : Nat)
  /-- There is no weight. -/
  | empty
  /-- An image has another number of samples than its dimensions ask for. -/
  | sampleCount (expected found : Nat)
deriving DecidableEq, Repr

/-- The wording of an error. -/
def Error.message : Error → String
  | .raggedRow row found expected =>
    s!"matrix row {row} contains {found} elements, whereas previous rows had {expected}"
  | .notANumber row column token =>
    s!"matrix element at row {row}, column {column} is not a number: {Text.quoted token}"
  | .sizeMismatch width height count =>
    s!"kernel data size {count} doesn't match {width}x{height}"
  | .empty => "kernel must have at least one element"
  | .sampleCount expected found =>
    s!"invalid dimensions: expected {expected} samples, got {found}"

/-- Whether the weights fill the rectangle. -/
def isConsistent (k : Kernel) : Bool := k.width * k.height == k.weights.length

/-- A kernel from its weights and dimensions. -/
def ofWeights (weights : List Float32) (width height : Nat) : Except Error Kernel :=
  if width = 0 ∨ height = 0 then .error .empty
  else if width * height ≠ weights.length then .error (.sizeMismatch width height weights.length)
  else .ok ⟨weights, width, height⟩

/-- The sum of the weights, rounded after every step. -/
def sum (k : Kernel) : Float32 := k.weights.foldl (· + ·) Precision.negativeZero

/-- Whether two kernels have the same dimensions and numerically equal weights: NaN equals nothing
and both zeros are equal. -/
def agrees (k l : Kernel) : Bool :=
  k.width == l.width && k.height == l.height && k.weights.length == l.weights.length
    && (k.weights.zip l.weights).all fun (v, w) => v == w

theorem isConsistent_iff (k : Kernel) : k.isConsistent ↔ k.width * k.height = k.weights.length := by
  simp [isConsistent]

/-- What `ofWeights` admits is consistent. -/
theorem isConsistent_of_ofWeights {weights : List Float32} {width height : Nat} {k : Kernel}
    (h : ofWeights weights width height = .ok k) : k.isConsistent := by
  unfold ofWeights at h
  split at h
  · simp at h
  · split at h
    · simp at h
    · rename_i fits
      obtain rfl : _ = k := Except.ok.inj h
      simpa [isConsistent] using fits

end Kernel

end Stencil
