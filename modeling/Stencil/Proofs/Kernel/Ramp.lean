import Stencil.Kernel.Ramp
import Stencil.Proofs.Kernel.Notation
import Stencil.Proofs.Precision.Reciprocal

/-!
# Ramps are read as their kernels

A ramp is written row by row, read by cutting its text apart, and printed in one flat sequence.  The
rows are the flat sequence cut at every `n`-th index, so the printer writes the text of the ramp
again, and what the printer writes is read back.  The period of the weights plays no part in this.

## Key results

- `flatten_rampRows`: the rows of a ramp are its weights, one behind the other
- `text_ramp`: the kernel of a ramp is printed as the text of the ramp
- `parse_rampText`: what the text of a ramp is read as
-/

namespace Stencil.Kernel

open Precision (value?)

/-! ## Weights -/

/-- The weight of a ramp is a whole number between -3 and 3, without rounding. -/
theorem rampWeight_eq (index : Nat) :
    rampWeight index = Precision.ofInt ((index % 7 : Nat) - 3) := by
  have hall : ∀ r < 7, Precision.ofNat r - Precision.ofInt 3 = Precision.ofInt ((r : Nat) - 3) := by
    decide
  exact hall (index % 7) (Nat.mod_lt index (by decide))

/-- The weight of a ramp has that value. -/
theorem value?_rampWeight (index : Nat) :
    value? (rampWeight index) = some ((index % 7 : Nat) - 3 : ℚ) := by
  have hmod : index % 7 < 7 := Nat.mod_lt index (by decide)
  rw [rampWeight_eq, Precision.value?_ofInt (by unfold Precision.wholeLimit; omega)
    (by unfold Precision.wholeLimit; omega)]
  push_cast
  rfl

theorem isFinite_rampWeight (index : Nat) : (rampWeight index).isFinite := by
  rw [← Precision.isSome_value?, value?_rampWeight]
  rfl

/-! ## Rows -/

/-- The kernel of the ramp of side `n`. -/
def ramp (n : Nat) : Kernel := ⟨(List.range (n * n)).map rampWeight, n, n⟩

/-- The weights of a ramp, row by row. -/
def rampRows (n rows : Nat) : List (List Float32) :=
  (List.range rows).map fun row => (List.range n).map fun column => rampWeight (row * n + column)

/-- The rows of a ramp are its weights, one behind the other. -/
theorem flatten_rampRows (n rows : Nat) :
    (rampRows n rows).flatten = (List.range (rows * n)).map rampWeight := by
  unfold rampRows
  induction rows with
  | zero => simp
  | succ rows ih =>
    -- The last row goes on where the rows above it end
    rw [List.range_succ, List.map_append, List.flatten_append, ih, Nat.succ_mul, List.range_add,
      List.map_append, List.map_map]
    simp

/-- Every row of a ramp has as many weights as the side. -/
theorem length_of_mem_rampRows {n rows : Nat} {row : List Float32} (h : row ∈ rampRows n rows) :
    row.length = n := by
  obtain ⟨index, -, rfl⟩ := List.mem_map.1 h
  simp

/-- The text of a ramp is the joined text of its rows. -/
theorem toList_rampText (n : Nat) :
    (rampText n).toList = [rowDelimiter].intercalate ((rampRows n n).map rowText) := by
  have hrow : ∀ row, rampRow n row =
      rowText ((List.range n).map fun column => rampWeight (row * n + column)) := by
    intro row
    rw [rampRow, rowText, List.map_map]
    rfl
  rw [rampText, String.toList_ofList, rampRows, List.map_map, funext hrow]
  rfl

/-! ## Reading and printing -/

/-- The kernel of a ramp is printed as the text of the ramp. -/
theorem text_ramp (n : Nat) : (ramp n).text = rampText n := by
  rw [← String.toList_inj, text, String.toList_ofList, toList_rampText]
  rcases Nat.eq_zero_or_pos n with rfl | hpos
  · rfl
  · rw [← writeWeights_flatten hpos fun row hrow => length_of_mem_rampRows hrow, flatten_rampRows]
    rfl

/-- A ramp with weights is read as its kernel. -/
theorem parse_rampText_of_pos {n : Nat} (hpos : 0 < n) : parse (rampText n) = .ok (ramp n) := by
  rw [← text_ramp]
  refine parse_text ?_ ?_ ?_
  · exact List.ne_nil_of_length_pos (by simp [ramp, hpos])
  · rw [isConsistent_iff]
    simp [ramp]
  · intro w hw
    obtain ⟨index, -, rfl⟩ := List.mem_map.1 hw
    exact isFinite_rampWeight index

/-- The ramp of side `n` is read as a square of side `n` whose weights count from -3 to 3 in row-major
    order, and the kernel that is read is printed as the ramp again.  The ramp of side zero is read as
    a matrix without elements. -/
theorem parse_rampText :
    parse (rampText 0) = .error .empty ∧
      ∀ n > 0, ∃ k, parse (rampText n) = .ok k ∧ k.width = n ∧ k.height = n ∧
        k.weights.length = n * n ∧
        (∀ i < n * n, ∃ w, k.weights[i]? = some w ∧ w = Precision.ofInt ((i % 7 : Nat) - 3) ∧
          value? w = some ((i % 7 : Nat) - 3 : ℚ)) ∧
        k.text = rampText n := by
  refine ⟨rfl, fun n hpos => ⟨ramp n, parse_rampText_of_pos hpos, rfl, rfl, by simp [ramp],
    fun i hi => ⟨rampWeight i, ?_, rampWeight_eq i, value?_rampWeight i⟩, text_ramp n⟩⟩
  rw [ramp, List.getElem?_map, List.getElem?_range hi]
  rfl

/-- In the ramp of side three the weights begin again in the last row. -/
theorem parse_rampText_three :
    3 > 0 ∧ 7 < 3 * 3 ∧ ∃ k, parse (rampText 3) = .ok k ∧ k.weights[7]? = some (Precision.ofInt (-3)) ∧
      k.text = "-3,-2,-1;0,1,2;3,-3,-2" := by
  obtain ⟨k, hk, -, -, -, hweights, htext⟩ := parse_rampText.2 3 (by decide)
  obtain ⟨w, hw, rfl, -⟩ := hweights 7 (by decide)
  refine ⟨by decide, by decide, k, hk, hw, ?_⟩
  rw [htext]
  decide

end Stencil.Kernel
