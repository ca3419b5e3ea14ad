import Stencil.Proofs.Kernel.Taps
import Stencil.Proofs.Precision.Symmetry

/-!
# The symmetry of a bell curve

A bell is computed from the squares of an offset, so it depends on the magnitudes of the two
coordinates only, in either order.  The side of a window is odd, and so a mirrored cell has the
negated coordinate.  The weights are then divided by one and the same number, or by none.  So the
window keeps all symmetries of a square exactly, whatever the standard deviation: the stored weights
are the same, also where they are infinite or NaN.

## Key results

- `bell_congr`: offsets with the same magnitudes have the same bell
- `getElem?_normalizeWeights_congr`: equal weights stay equal when they are normalized
- `IsWindow.weightAt_eq`: cells that are as far from the middle have the same weight
- `gaussian_symmetric`: the symmetries of a window
-/

namespace Stencil.Kernel

open Precision

/-! ## Bells -/

/-- Offsets with the same magnitudes, in either order, have the same bell. -/
theorem bell_congr {a b : Offset} (h : ({a.x.abs, a.y.abs} : Set Float32) = {b.x.abs, b.y.abs})
    (twoSigmaSquared : Float32) : bell twoSigmaSquared a = bell twoSigmaSquared b := by
  have hsquares : ∀ o : Offset, bell twoSigmaSquared o =
      (-(o.x.abs * o.x.abs + o.y.abs * o.y.abs) / twoSigmaSquared).exp := by
    intro o
    rw [abs_mul_abs, abs_mul_abs]
    rfl
  rw [hsquares, hsquares]
  rcases Set.pair_eq_pair_iff.1 h with ⟨hx, hy⟩ | ⟨hx, hy⟩
  · rw [hx, hy]
  · rw [hx, hy, add_comm_single]

/-- Equal weights stay equal when they are normalized. -/
theorem getElem?_normalizeWeights_congr {weights : List Float32} {i j : Nat}
    (h : weights[i]? = weights[j]?) :
    (normalizeWeights weights)[i]? = (normalizeWeights weights)[j]? := by
  unfold normalizeWeights
  split
  · exact h
  · rw [List.getElem?_map, List.getElem?_map, h]

/-! ## Windows -/

/-- A square of normalized bells, in which every cell has its offset. -/
structure IsWindow (sigma : Float32) (k : Kernel) : Prop where
  square : k.height = k.width
  weights : k.weights = normalizeWeights (bells sigma k.width (k.width * k.width))
  offset : ∀ i < k.width * k.width, k.offset i = .ok (shiftOf i k.width k.width).toOffset

variable {size : Nat} {sigma : Float32} {k : Kernel}

/-- A bell curve is a window with the odd side. -/
theorem isWindow_of_gaussian (h : gaussian size sigma = .ok k) :
    k.width = oddSide size ∧ IsWindow sigma k := by
  obtain ⟨count, hcount, -⟩ := bind_eq_ok_iff.1 h
  obtain ⟨rfl, -⟩ := squareCount_eq_ok_iff.1 hcount
  rw [gaussian_eq_ok hcount] at h
  obtain rfl := Except.ok.inj h
  exact ⟨rfl, rfl, rfl, fun i hi => offsetOf_of_squareCount hcount hi⟩

/-- The side of a bell curve is the least odd number that is no less than the size, and no less than
    one. -/
theorem isLeast_oddSide (size : Nat) :
    IsLeast {side | side % 2 = 1 ∧ size ≤ side ∧ 1 ≤ side} (oddSide size) := by
  refine ⟨⟨oddSide_odd size, le_oddSide size⟩, ?_⟩
  rintro side ⟨hodd, hsize, -⟩
  unfold oddSide
  omega

namespace IsWindow

theorem length_weights (h : IsWindow sigma k) : k.weights.length = k.width * k.width := by
  rw [h.weights, normalizeWeights_length, length_bells]

/-- Cells have the same weight if their offsets have the same magnitudes. -/
theorem weights_eq (h : IsWindow sigma k) {i j : Nat} (hi : i < k.width * k.width)
    (hj : j < k.width * k.width) {a b : Offset} (ha : k.offset i = .ok a) (hb : k.offset j = .ok b)
    (hmagnitudes : ({a.x.abs, a.y.abs} : Set Float32) = {b.x.abs, b.y.abs}) :
    k.weights[i]? = k.weights[j]? := by
  obtain rfl := Except.ok.inj ((h.offset i hi).symm.trans ha)
  obtain rfl := Except.ok.inj ((h.offset j hj).symm.trans hb)
  rw [h.weights]
  -- They have the same weight before the weights are normalized
  refine getElem?_normalizeWeights_congr ?_
  rw [getElem?_bells sigma _ hi, getElem?_bells sigma _ hj, bell_congr hmagnitudes]

end IsWindow

/-! ## Columns and rows -/

/-- The weight in a column and a row. -/
def weightAt (k : Kernel) (column row : Nat) : Option Float32 := k.weights[row * k.width + column]?

/-- The distance of a column or a row from the middle one. -/
def fromMiddle (side place : Nat) : Nat := ((place : Int) - ((side - 1) / 2 : Nat)).natAbs

/-- In an odd side the opposite place is as far from the middle. -/
theorem fromMiddle_mirrored {side place : Nat} (hodd : side % 2 = 1) (hplace : place < side) :
    fromMiddle side (side - 1 - place) = fromMiddle side place := by
  unfold fromMiddle
  omega

/-- The coordinates of an offset have the distances from the middle as their magnitudes. -/
private theorem abs_toOffset {side column : Nat} (hcolumn : column < side) (row : Nat) :
    (shiftOf (row * side + column) side side).toOffset.x.abs =
        (ofInt (fromMiddle side column)).abs ∧
      (shiftOf (row * side + column) side side).toOffset.y.abs =
        (ofInt (fromMiddle side row)).abs := by
  obtain ⟨hdiv, hmod⟩ := Convolution.row_column hcolumn row
  unfold shiftOf
  rw [hdiv, hmod]
  -- Rows are counted downwards, so the difference is taken the other way round
  constructor
  · exact abs_ofInt_congr (Int.natAbs_natCast _).symm
  · refine abs_ofInt_congr ?_
    unfold fromMiddle
    dsimp only
    omega

namespace IsWindow

variable {column row column' row' : Nat}

/-- Every cell has a weight. -/
theorem exists_weightAt (h : IsWindow sigma k) (hcolumn : column < k.width) (hrow : row < k.width) :
    ∃ w, k.weightAt column row = some w :=
  ⟨_, List.getElem?_eq_getElem (by rw [h.length_weights]; exact Convolution.cell_lt hcolumn hrow)⟩

/-- Cells have the same weight if they are as far from the middle, or if the columns of one are as
    far as the rows of the other. -/
theorem weightAt_eq (h : IsWindow sigma k) (hcolumn : column < k.width) (hrow : row < k.width)
    (hcolumn' : column' < k.width) (hrow' : row' < k.width)
    (hplaces : fromMiddle k.width column = fromMiddle k.width column' ∧
        fromMiddle k.width row = fromMiddle k.width row' ∨
      fromMiddle k.width column = fromMiddle k.width row' ∧
        fromMiddle k.width row = fromMiddle k.width column') :
    k.weightAt column row = k.weightAt column' row' := by
  have hi := Convolution.cell_lt hcolumn hrow
  have hj := Convolution.cell_lt hcolumn' hrow'
  obtain ⟨hx, hy⟩ := abs_toOffset hcolumn row
  obtain ⟨hx', hy'⟩ := abs_toOffset hcolumn' row'
  refine h.weights_eq hi hj (h.offset _ hi) (h.offset _ hj) ?_
  rw [hx, hy, hx', hy']
  rcases hplaces with ⟨hcolumns, hrows⟩ | ⟨hcolumns, hrows⟩
  · rw [hcolumns, hrows]
  · rw [hcolumns, hrows, Set.pair_comm]

end IsWindow

/-! ## The symmetries -/

/-- A bell curve of any size and any standard deviation is a square, whose side is the least odd number
    that is no less than the size and one.  Every cell has an offset, and cells whose offsets have the
    same magnitudes, in either order, have the same weight.  So the window is the same when it is
    mirrored in either direction, transposed, or turned by a quarter in either direction. -/
theorem gaussian_symmetric (h : gaussian size sigma = .ok k) :
    k.height = k.width ∧ IsLeast {side | side % 2 = 1 ∧ size ≤ side ∧ 1 ≤ side} k.width ∧
      k.weights.length = k.width * k.width ∧
      (∀ i < k.width * k.width, ∀ j < k.width * k.width,
        ∃ a b w, k.offset i = .ok a ∧ k.offset j = .ok b ∧ k.weights[i]? = some w ∧
          (({a.x.abs, a.y.abs} : Set Float32) = {b.x.abs, b.y.abs} → k.weights[j]? = some w)) ∧
      ∀ column < k.width, ∀ row < k.width, ∃ w, k.weightAt column row = some w ∧
        k.weightAt (k.width - 1 - column) row = some w ∧
        k.weightAt column (k.width - 1 - row) = some w ∧
        k.weightAt row column = some w ∧
        k.weightAt (k.width - 1 - row) column = some w ∧
        k.weightAt row (k.width - 1 - column) = some w := by
  obtain ⟨hside, hwindow⟩ := isWindow_of_gaussian h
  refine ⟨hwindow.square, ?_, hwindow.length_weights, fun i hi j hj => ?_, ?_⟩
  · rw [hside]
    exact isLeast_oddSide size
  · have hstored : i < k.weights.length := by rwa [hwindow.length_weights]
    refine ⟨_, _, _, hwindow.offset i hi, hwindow.offset j hj, List.getElem?_eq_getElem hstored,
      fun hmagnitudes => ?_⟩
    rw [← hwindow.weights_eq hi hj (hwindow.offset i hi) (hwindow.offset j hj) hmagnitudes]
    exact List.getElem?_eq_getElem hstored
  · intro column hcolumn row hrow
    have hodd : k.width % 2 = 1 := hside ▸ oddSide_odd size
    have hcolumn' : k.width - 1 - column < k.width := by omega
    have hrow' : k.width - 1 - row < k.width := by omega
    have hcolumns := fromMiddle_mirrored hodd hcolumn
    have hrows := fromMiddle_mirrored hodd hrow
    obtain ⟨w, hw⟩ := hwindow.exists_weightAt hcolumn hrow
    refine ⟨w, hw, ?_, ?_, ?_, ?_, ?_⟩
    · exact (hwindow.weightAt_eq hcolumn' hrow hcolumn hrow (.inl ⟨hcolumns, rfl⟩)).trans hw
    · exact (hwindow.weightAt_eq hcolumn hrow' hcolumn hrow (.inl ⟨rfl, hrows⟩)).trans hw
    · exact (hwindow.weightAt_eq hrow hcolumn hcolumn hrow (.inr ⟨rfl, rfl⟩)).trans hw
    · exact (hwindow.weightAt_eq hrow' hcolumn hcolumn hrow (.inr ⟨hrows, rfl⟩)).trans hw
    · exact (hwindow.weightAt_eq hrow hcolumn' hcolumn hrow (.inr ⟨rfl, hcolumns⟩)).trans hw

/-- A size of four is raised to five, and at standard deviation zero, where the middle is NaN, a cell
    beside a corner has the weight of the other ones beside a corner. -/
theorem gaussian_symmetric_five :
    ∃ k w, gaussian 4 (ofInt 0) = .ok k ∧ k.width = 5 ∧ k.weightAt 1 0 = some w ∧
      k.weightAt 3 0 = some w ∧ k.weightAt 1 4 = some w ∧ k.weightAt 0 1 = some w ∧
      k.weightAt 4 1 = some w ∧ k.weightAt 0 3 = some w := by
  have hcount : squareCount (oddSide 4) = .ok 25 := rfl
  have hmade := gaussian_eq_ok hcount (ofInt 0)
  obtain ⟨-, -, -, -, hcells⟩ := gaussian_symmetric hmade
  obtain ⟨w, hcell, hright, hbelow, hturned, hright', hbelow'⟩ :=
    hcells 1 (by decide : 1 < 5) 0 (by decide : 0 < 5)
  exact ⟨_, w, hmade, rfl, hcell, hright, hbelow, hturned, hright', hbelow'⟩

end Stencil.Kernel
