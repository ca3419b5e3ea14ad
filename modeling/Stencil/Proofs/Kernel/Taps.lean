import Stencil.Kernel.Stock
import Stencil.Proofs.Kernel.Loops

/-!
# The taps of a kernel

In a consistent kernel with at most `2 ^ 61` weights all index arithmetic stays inside a machine
word, so every weight has a tap, and its displacement is the exact difference from the centre.

## Key results

- `displacement_eq_ok` / `displacement_eq_ok_of_lt`: the displacement of a cell, as a difference of
  integers
- `offset_eq_ok`: the offset of a weight
- `taps_eq_ok`: the taps of a kernel, in row-major order
- `convolve_eq_samples`: the filter applies the steps of the taps
- `gaussian_eq_ok`: the bell at every offset of a square
-/

namespace Stencil.Kernel

/-- The displacement of the weight with the given index, as a difference of integers: to the right
    of the central column, and above the central row. -/
def shiftOf (index width height : Nat) : Displacement :=
  ⟨(index % width : Nat) - ((width - 1) / 2 : Nat),
    ((height - 1) / 2 : Nat) - (index / width : Nat)⟩

/-- A cell whose column and row a signed word can hold has the exact difference as its displacement,
    whether or not the rectangle holds the cell. -/
theorem displacement_eq_ok {index width height : Nat} (hwidth : 0 < width)
    (hwidth_le : width ≤ Word.size) (hheight_le : height ≤ Word.size)
    (hcolumn : (index % width : Nat) < Word.signedLimit)
    (hrow : (index / width : Nat) < Word.signedLimit) :
    displacement index width height = .ok (shiftOf index width height) := by
  unfold displacement centerOf shiftOf
  rw [if_neg (Nat.ne_of_gt hwidth)]
  dsimp only
  -- Quotients and remainders become variables, so that the rest is linear
  generalize index % width = column at *
  generalize index / width = row at *
  have hcenter : ((width - 1) / 2 : Nat) < Word.signedLimit := by
    unfold Word.signedLimit Word.size at *
    omega
  have hmiddle : ((height - 1) / 2 : Nat) < Word.signedLimit := by
    unfold Word.signedLimit Word.size at *
    omega
  rw [Word.toSigned_of_lt hcolumn, Word.toSigned_of_lt hcenter, Word.toSigned_of_lt hrow,
    Word.toSigned_of_lt hmiddle]
  generalize (width - 1) / 2 = center at *
  generalize (height - 1) / 2 = middle at *
  -- No difference leaves the range of a signed word
  rw [Word.checked_of_bounds (by omega) (by omega), ok_bind,
    Word.checked_of_bounds (by omega) (by omega), ok_bind,
    Word.checked_of_bounds (by omega) (by omega), ok_bind, Int.neg_sub]
  rfl

/-- An index that a signed word can hold has a displacement in every rectangle. -/
theorem displacement_eq_ok_of_lt {index width height : Nat} (hwidth : 0 < width)
    (hwidth_le : width ≤ Word.size) (hheight_le : height ≤ Word.size)
    (hindex : (index : Int) < Word.signedLimit) :
    displacement index width height = .ok (shiftOf index width height) := by
  have hcolumn : index % width ≤ index := Nat.mod_le index width
  have hrow : index / width ≤ index := Nat.div_le_self index width
  exact displacement_eq_ok hwidth hwidth_le hheight_le (by omega) (by omega)

/-- The tap of the weight with the given index. -/
def tapAt (k : Kernel) (index : Nat) (weight : Float32) : Tap :=
  ⟨index, weight, (shiftOf index k.width k.height).toOffset⟩

/-- The taps of all weights, in row-major order. -/
def tapList (k : Kernel) : List Tap :=
  k.weights.zipIdx.map fun (weight, index) => k.tapAt index weight

@[simp] theorem length_tapList (k : Kernel) : k.tapList.length = k.weights.length := by
  simp [tapList]

/-- The tap with an index is the tap of the weight with that index. -/
theorem getElem?_tapList (k : Kernel) (i : Nat) :
    k.tapList[i]? = k.weights[i]?.map (k.tapAt i) := by
  rw [tapList, List.getElem?_map, List.getElem?_zipIdx, Option.map_map, Nat.zero_add]
  rfl

/-- The sides of a consistent kernel with a weight are no longer than its list of weights. -/
theorem sides_le_of_isConsistent {k : Kernel} (hconsistent : k.isConsistent)
    (hne : k.weights ≠ []) :
    0 < k.width ∧ 0 < k.height ∧ k.width ≤ k.weights.length ∧ k.height ≤ k.weights.length := by
  have hproduct : k.width * k.height = k.weights.length := (isConsistent_iff k).1 hconsistent
  have hlength : 0 < k.weights.length := List.length_pos_iff.2 hne
  rw [← hproduct] at hlength ⊢
  have hwidth : 0 < k.width := Nat.pos_of_mul_pos_right hlength
  have hheight : 0 < k.height := Nat.pos_of_mul_pos_left hlength
  exact ⟨hwidth, hheight, Nat.le_mul_of_pos_right _ hheight, Nat.le_mul_of_pos_left _ hwidth⟩

/-- Every weight of a consistent kernel has its offset, if a signed word can count the weights. -/
theorem offset_eq_ok_of_lt {k : Kernel} (hconsistent : k.isConsistent) (hne : k.weights ≠ [])
    (hcount : (k.weights.length : Int) < Word.signedLimit) {index : Nat}
    (hindex : index < k.weights.length) :
    k.offset index = .ok (shiftOf index k.width k.height).toOffset := by
  obtain ⟨hwidth, -, hwidth_le, hheight_le⟩ := sides_le_of_isConsistent hconsistent hne
  -- The sides and the index are all bounded by the number of weights
  have hsize : k.weights.length ≤ Word.size := by
    unfold Word.signedLimit at hcount
    unfold Word.size
    omega
  rw [offset, offsetOf, displacement_eq_ok_of_lt hwidth (Nat.le_trans hwidth_le hsize)
    (Nat.le_trans hheight_le hsize) (by omega)]
  rfl

/-- Every weight of a consistent kernel has its tap, if a signed word can count the weights. -/
theorem taps_eq_ok_of_lt {k : Kernel} (hconsistent : k.isConsistent) (hne : k.weights ≠ [])
    (hcount : (k.weights.length : Int) < Word.signedLimit) : k.taps = .ok k.tapList := by
  refine mapM_eq_ok_map fun cell hcell => ?_
  obtain ⟨weight, index⟩ := cell
  show k.tap index weight = _
  rw [tap, offset_eq_ok_of_lt hconsistent hne hcount (List.mem_zipIdx' hcell).1]
  rfl

/-- The weights that fit in memory are counted by a signed word. -/
private theorem lt_signedLimit_of_le {count : Nat} (h : count ≤ weightLimit) :
    (count : Int) < Word.signedLimit := by
  unfold weightLimit at h
  unfold Word.signedLimit
  omega

/-- Every weight of a consistent kernel that fits in memory has its offset. -/
theorem offset_eq_ok {k : Kernel} (hconsistent : k.isConsistent) (hne : k.weights ≠ [])
    (hcount : k.weights.length ≤ weightLimit) {index : Nat} (hindex : index < k.weights.length) :
    k.offset index = .ok (shiftOf index k.width k.height).toOffset :=
  offset_eq_ok_of_lt hconsistent hne (lt_signedLimit_of_le hcount) hindex

/-- Every weight of a consistent kernel that fits in memory has its tap. -/
theorem taps_eq_ok {k : Kernel} (hconsistent : k.isConsistent) (hne : k.weights ≠ [])
    (hcount : k.weights.length ≤ weightLimit) : k.taps = .ok k.tapList :=
  taps_eq_ok_of_lt hconsistent hne (lt_signedLimit_of_le hcount)

/-- The taps of a kernel have its weights. -/
theorem weights_of_taps {k : Kernel} {taps : List Tap} (h : k.taps = .ok taps) :
    taps.map Tap.weight = k.weights := by
  have hstep : ∀ cell ∈ k.weights.zipIdx, ∀ tap,
      (fun (weight, index) => k.tap index weight) cell = .ok tap → tap.weight = cell.1 := by
    intro cell _ tap htap
    obtain ⟨weight, index⟩ := cell
    simp only [Kernel.tap] at htap
    cases hoffset : k.offset index with
    | error e => simp [hoffset, Except.map] at htap
    | ok offset =>
      rw [hoffset] at htap
      obtain rfl := Except.ok.inj htap
      rfl
  rw [map_of_mapM_eq_ok hstep h, List.zipIdx_map_fst]

/-- A kernel with taps filters an image whose samples fill it by the steps of its taps. -/
theorem convolve_eq_samples {k : Kernel} {taps : List Tap} {image : Image} {count : Nat}
    (hconsistent : k.isConsistent) (hne : k.weights ≠ []) (htaps : k.taps = .ok taps)
    (hcount : Convolution.sampleCount image = .ok count) (hsize : image.samples.size = count)
    (hpositive : 0 < count) :
    k.convolve image =
      Failure.ofFaulty (Convolution.samples (taps.map Convolution.Step.ofTap) image count) := by
  have hfull : k.weights.isEmpty = false := List.isEmpty_eq_false_iff.2 hne
  have hfits : ¬ (image.samples.size ≠ count ∨ count = 0) := by omega
  have hfilling := Convolution.filling_of_sampleCount hcount hsize hpositive
  unfold convolve
  simp only [hconsistent, hfull, hcount, htaps, Failure.ofFaulty_ok, ok_bind, if_neg hfits]
  rw [← hfilling.filterImage_eq_samples]
  cases Convolution.filterImage (taps.map Convolution.Step.ofTap) image count <;> rfl

/-! ## Square windows -/

/-- A square has as many weights as cells, if they fit in memory. -/
theorem squareCount_eq_ok_iff {side count : Nat} :
    squareCount side = .ok count ↔ side * side = count ∧ count < weightLimit := by
  have hword : weightLimit < Word.size := by decide
  unfold squareCount
  by_cases hproduct : side * side < Word.size
  · rw [Word.product_of_lt hproduct, ok_bind]
    split
    · rename_i hfits
      rw [pure_eq_ok_iff]
      exact ⟨fun h => ⟨h, h ▸ hfits⟩, fun h => h.1⟩
    · rename_i hlarge
      exact iff_of_false nofun fun h => hlarge (h.1 ▸ h.2)
  · unfold Word.product
    rw [if_neg hproduct]
    exact iff_of_false nofun fun h => hproduct (h.1 ▸ Nat.lt_trans h.2 hword)

/-- Every cell of a square that fits in memory has its offset. -/
theorem offsetOf_of_squareCount {side count index : Nat} (hcount : squareCount side = .ok count)
    (hindex : index < count) :
    offsetOf index side side = .ok (shiftOf index side side).toOffset := by
  obtain ⟨rfl, hlimit⟩ := squareCount_eq_ok_iff.1 hcount
  have hside : 0 < side := Nat.pos_of_mul_pos_left (Nat.zero_lt_of_lt hindex)
  have hle : side ≤ side * side := Nat.le_mul_of_pos_left side hside
  have hsize : side ≤ Word.size := by
    unfold weightLimit at hlimit
    unfold Word.size
    omega
  rw [offsetOf, displacement_eq_ok_of_lt hside hsize hsize (by
    unfold weightLimit at hlimit
    unfold Word.signedLimit
    omega)]
  rfl

/-- The bells at the offsets of a square, before they are normalized. -/
def bells (sigma : Float32) (side count : Nat) : List Float32 :=
  (List.range count).map fun index =>
    bell (Precision.ofInt 2 * sigma * sigma) (shiftOf index side side).toOffset

@[simp] theorem length_bells (sigma : Float32) (side count : Nat) :
    (bells sigma side count).length = count := by simp [bells]

theorem getElem?_bells (sigma : Float32) (side : Nat) {count index : Nat} (hindex : index < count) :
    (bells sigma side count)[index]? =
      some (bell (Precision.ofInt 2 * sigma * sigma) (shiftOf index side side).toOffset) := by
  rw [bells, List.getElem?_map, List.getElem?_range hindex]
  rfl

/-- A bell curve that fits in memory is made of the bell at every offset. -/
theorem gaussian_eq_ok {size count : Nat} (hcount : squareCount (oddSide size) = .ok count)
    (sigma : Float32) :
    gaussian size sigma =
      .ok (normalized ⟨bells sigma (oddSide size) count, oddSide size, oddSide size⟩) := by
  have hbells : ((List.range count).mapM fun index =>
      (offsetOf index (oddSide size) (oddSide size)).map
        (bell (Precision.ofInt 2 * sigma * sigma))) = .ok (bells sigma (oddSide size) count) := by
    refine mapM_eq_ok_map fun index hindex => ?_
    rw [offsetOf_of_squareCount hcount (List.mem_range.1 hindex)]
    rfl
  unfold gaussian
  simp only [hcount, ok_bind, hbells]
  rfl

end Stencil.Kernel
