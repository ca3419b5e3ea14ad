import Stencil.Proofs.Kernel.Pointwise
import Stencil.Proofs.Precision.Reciprocal

/-!
# The rectangle of displacements

The displacements of a kernel's weights fill a rectangle around zero, each place of it once: the index
of a weight is found again from its displacement.  For sides up to `2 ^ 25 + 1` the offset of a tap is
its displacement without any rounding, so the same holds of the offsets.

## Key results

- `indexAt_shiftOf` / `exists_shiftOf_eq`: indices and places of the rectangle correspond
- `isExactly_iff`: the offset of a tap is its displacement
- `taps_fill_rectangle`: the taps of a kernel
-/

namespace Stencil

namespace Kernel

open Precision (value?)

/-! ## Displacements and indices -/

/-- The places around the central cell that the cells of a rectangle take.  The centre of an even side
    has one place less before it than behind it; rows are counted downwards, and places upwards. -/
structure InRectangle (width height : Nat) (d : Displacement) : Prop where
  leftmost : -(((width - 1) / 2 : Nat) : Int) ≤ d.right
  rightmost : d.right ≤ (width / 2 : Nat)
  lowest : -((height / 2 : Nat) : Int) ≤ d.up
  highest : d.up ≤ ((height - 1) / 2 : Nat)

/-- The index of the weight with a displacement. -/
def indexAt (width height : Nat) (d : Displacement) : Int :=
  (((height - 1) / 2 : Nat) - d.up) * width + (d.right + ((width - 1) / 2 : Nat))

variable {index width height : Nat}

/-- The displacement of a weight is a place of the rectangle. -/
theorem inRectangle_shiftOf (hindex : index < width * height) :
    InRectangle width height (shiftOf index width height) := by
  have hpositive : 0 < width := Nat.pos_of_mul_pos_right (Nat.zero_lt_of_lt hindex)
  have hcolumn : index % width < width := Nat.mod_lt index hpositive
  have hrow : index / width < height := Nat.div_lt_of_lt_mul hindex
  unfold shiftOf
  generalize index % width = column at *
  generalize index / width = row at *
  constructor <;> dsimp only <;> omega

/-- The index of a weight is found again from its displacement. -/
theorem indexAt_shiftOf (index width height : Nat) :
    indexAt width height (shiftOf index width height) = index := by
  have hsplit : ((index / width : Nat) : Int) * width + (index % width : Nat) = index := by
    exact_mod_cast Nat.div_add_mod' index width
  unfold indexAt shiftOf
  dsimp only
  rw [sub_sub_cancel, sub_add_cancel, hsplit]

/-- Every place of the rectangle is the displacement of a weight. -/
theorem exists_shiftOf_eq {d : Displacement} (hwidth : 0 < width) (hheight : 0 < height)
    (h : InRectangle width height d) :
    ∃ index < width * height, shiftOf index width height = d := by
  obtain ⟨right, up⟩ := d
  obtain ⟨hleftmost, hrightmost, hlowest, hhighest⟩ := h
  dsimp only at hleftmost hrightmost hlowest hhighest
  -- The column and the row of the place, counted from the first ones
  obtain ⟨column, hcolumn⟩ : ∃ column : Nat, (column : Int) = right + ((width - 1) / 2 : Nat) :=
    ⟨_, Int.toNat_of_nonneg (by omega)⟩
  obtain ⟨row, hrow⟩ : ∃ row : Nat, (row : Int) = ((height - 1) / 2 : Nat) - up :=
    ⟨_, Int.toNat_of_nonneg (by omega)⟩
  have hcolumn_lt : column < width := by omega
  have hrow_lt : row < height := by omega
  obtain ⟨hdiv, hmod⟩ := Convolution.row_column hcolumn_lt row
  refine ⟨row * width + column, Convolution.cell_lt hcolumn_lt hrow_lt, ?_⟩
  unfold shiftOf
  rw [hdiv, hmod, hcolumn, hrow, add_sub_cancel_right, sub_sub_cancel]

/-! ## Offsets -/

/-- An offset is a displacement without rounding. -/
def Offset.IsExactly (offset : Offset) (d : Displacement) : Prop :=
  value? offset.x = some (d.right : ℚ) ∧ value? offset.y = some (d.up : ℚ)

/-- An offset is one displacement at most. -/
theorem Offset.IsExactly.unique {offset : Offset} {d e : Displacement} (hd : offset.IsExactly d)
    (he : offset.IsExactly e) : d = e := by
  obtain ⟨right, up⟩ := d
  obtain ⟨right', up'⟩ := e
  have hright := Option.some.inj (hd.1.symm.trans he.1)
  have hup := Option.some.inj (hd.2.symm.trans he.2)
  rw [Displacement.mk.injEq]
  exact ⟨by exact_mod_cast hright, by exact_mod_cast hup⟩

variable {k : Kernel}

/-- The taps are those of the weights, each with its own index. -/
theorem mem_tapList_iff {tap : Tap} :
    tap ∈ k.tapList ↔ ∃ weight, k.weights[tap.index]? = some weight ∧
      tap = k.tapAt tap.index weight := by
  rw [List.mem_iff_getElem?]
  simp only [getElem?_tapList, Option.map_eq_some_iff]
  constructor
  · rintro ⟨i, weight, hweight, rfl⟩
    exact ⟨weight, hweight, rfl⟩
  · rintro ⟨weight, hweight, htap⟩
    exact ⟨tap.index, weight, hweight, htap.symm⟩

/-- A tap is determined by its index. -/
theorem eq_of_index_eq {tap other : Tap} (htap : tap ∈ k.tapList) (hother : other ∈ k.tapList)
    (h : tap.index = other.index) : tap = other := by
  obtain ⟨weight, hweight, heq⟩ := mem_tapList_iff.1 htap
  obtain ⟨weight', hweight', heq'⟩ := mem_tapList_iff.1 hother
  rw [h, hweight'] at hweight
  obtain rfl := Option.some.inj hweight
  rw [heq, heq', h]

section Sides

variable (hconsistent : k.isConsistent) (hwidth : k.width ≤ sideLimit) (hheight : k.height ≤ sideLimit)
include hconsistent hwidth hheight

/-- The offset of a tap is its displacement, up to the longest sides. -/
theorem isExactly_tapAt {i : Nat} (hi : i < k.weights.length) (weight : Float32) :
    (k.tapAt i weight).offset.IsExactly (shiftOf i k.width k.height) := by
  obtain ⟨hright, hup⟩ := shiftOf_bounds hconsistent hi hwidth hheight
  exact ⟨Precision.value?_ofInt hright.1 hright.2, Precision.value?_ofInt hup.1 hup.2⟩

/-- A tap has the displacement of its index, and no other. -/
theorem isExactly_iff {tap : Tap} (htap : tap ∈ k.tapList) {d : Displacement} :
    tap.offset.IsExactly d ↔ d = shiftOf tap.index k.width k.height := by
  obtain ⟨weight, hweight, heq⟩ := mem_tapList_iff.1 htap
  obtain ⟨hindex, -⟩ := List.getElem?_eq_some_iff.1 hweight
  have hexact : tap.offset.IsExactly (shiftOf tap.index k.width k.height) := by
    rw [heq]
    exact isExactly_tapAt hconsistent hwidth hheight hindex weight
  constructor
  · intro hd
    exact hd.unique hexact
  · rintro rfl
    exact hexact

/-- The index of a tap is found from its offset. -/
theorem indexAt_of_isExactly {tap : Tap} (htap : tap ∈ k.tapList) {d : Displacement}
    (hd : tap.offset.IsExactly d) : indexAt k.width k.height d = tap.index := by
  rw [(isExactly_iff hconsistent hwidth hheight htap).1 hd, indexAt_shiftOf]

/-- No two taps have the same offset. -/
theorem eq_of_isExactly {tap other : Tap} (htap : tap ∈ k.tapList) (hother : other ∈ k.tapList)
    {d : Displacement} (hd : tap.offset.IsExactly d) (hd' : other.offset.IsExactly d) :
    tap = other := by
  have hindex := indexAt_of_isExactly hconsistent hwidth hheight htap hd
  rw [indexAt_of_isExactly hconsistent hwidth hheight hother hd'] at hindex
  exact eq_of_index_eq htap hother (by exact_mod_cast hindex.symm)

/-- The taps have the places of the rectangle as their offsets. -/
theorem exists_isExactly_iff (hne : k.weights ≠ []) {d : Displacement} :
    (∃ tap ∈ k.tapList, tap.offset.IsExactly d) ↔ InRectangle k.width k.height d := by
  have hproduct : k.width * k.height = k.weights.length := (isConsistent_iff k).1 hconsistent
  obtain ⟨hwidth_pos, hheight_pos, -, -⟩ := sides_le_of_isConsistent hconsistent hne
  constructor
  · rintro ⟨tap, htap, hd⟩
    obtain ⟨weight, hweight, -⟩ := mem_tapList_iff.1 htap
    obtain ⟨hindex, -⟩ := List.getElem?_eq_some_iff.1 hweight
    rw [(isExactly_iff hconsistent hwidth hheight htap).1 hd]
    exact inRectangle_shiftOf (hproduct ▸ hindex)
  · intro hd
    obtain ⟨i, hi, rfl⟩ := exists_shiftOf_eq hwidth_pos hheight_pos hd
    rw [hproduct] at hi
    exact ⟨k.tapAt i k.weights[i], mem_tapList_iff.2 ⟨_, List.getElem?_eq_getElem hi, rfl⟩,
      isExactly_tapAt hconsistent hwidth hheight hi _⟩

/-- One tap has no offset: it has the column and the row of the central cell. -/
theorem exists_central_tap (hne : k.weights ≠ []) :
    ∃ tap ∈ k.tapList, tap.index % k.width = k.center.column ∧ tap.index / k.width = k.center.row ∧
      ∀ other ∈ k.tapList, other.offset.IsExactly ⟨0, 0⟩ ↔ other = tap := by
  have hzero : InRectangle k.width k.height ⟨0, 0⟩ := by constructor <;> dsimp only <;> omega
  obtain ⟨tap, htap, hexact⟩ := (exists_isExactly_iff hconsistent hwidth hheight hne).2 hzero
  have hshift := (isExactly_iff hconsistent hwidth hheight htap).1 hexact
  unfold shiftOf at hshift
  rw [Displacement.mk.injEq] at hshift
  refine ⟨tap, htap, ?_, ?_, fun other hother => ⟨fun hother_zero => ?_, ?_⟩⟩
  · show tap.index % k.width = (k.width - 1) / 2
    omega
  · show tap.index / k.width = (k.height - 1) / 2
    omega
  · exact eq_of_isExactly hconsistent hwidth hheight hother htap hother_zero hexact
  · rintro rfl
    exact hexact

end Sides

/-! ## The taps -/

/-- The taps of a kernel come in the order of its weights, each with its weight, and with its
    displacement as the offset.  No two taps have the same offset, and together they have every place
    of the rectangle; the index of a tap is found from its offset.  One tap has no offset at all: it
    is the one of the central cell. -/
theorem taps_fill_rectangle (hconsistent : k.isConsistent) (hne : k.weights ≠ [])
    (hwidth : k.width ≤ sideLimit) (hheight : k.height ≤ sideLimit) :
    ∃ taps, k.taps = .ok taps ∧ taps.length = k.width * k.height ∧
      (∀ i < k.width * k.height, ∃ tap, taps[i]? = some tap ∧ tap.index = i ∧
        k.weights[i]? = some tap.weight ∧
        tap.offset.IsExactly ⟨(i % k.width : Nat) - ((k.width - 1) / 2 : Nat),
          ((k.height - 1) / 2 : Nat) - (i / k.width : Nat)⟩) ∧
      (∀ tap ∈ taps, ∀ other ∈ taps, ∀ d, tap.offset.IsExactly d → other.offset.IsExactly d →
        tap = other) ∧
      (∀ d, (∃ tap ∈ taps, tap.offset.IsExactly d) ↔ InRectangle k.width k.height d) ∧
      (∀ tap ∈ taps, ∀ d, tap.offset.IsExactly d → indexAt k.width k.height d = tap.index) ∧
      ∃ tap ∈ taps, tap.index % k.width = k.center.column ∧ tap.index / k.width = k.center.row ∧
        ∀ other ∈ taps, other.offset.IsExactly ⟨0, 0⟩ ↔ other = tap := by
  have hproduct : k.width * k.height = k.weights.length := (isConsistent_iff k).1 hconsistent
  have htaps := taps_eq_ok hconsistent hne (weights_le_of_sides_le hconsistent hwidth hheight)
  refine ⟨k.tapList, htaps, by rw [length_tapList, hproduct], fun i hi => ?_, ?_, ?_, ?_,
    exists_central_tap hconsistent hwidth hheight hne⟩
  · rw [hproduct] at hi
    exact ⟨k.tapAt i k.weights[i], by rw [getElem?_tapList, List.getElem?_eq_getElem hi]; rfl, rfl,
      List.getElem?_eq_getElem hi, isExactly_tapAt hconsistent hwidth hheight hi _⟩
  · intro tap htap other hother d hd hd'
    exact eq_of_isExactly hconsistent hwidth hheight htap hother hd hd'
  · intro d
    exact exists_isExactly_iff hconsistent hwidth hheight hne
  · intro tap htap d hd
    exact indexAt_of_isExactly hconsistent hwidth hheight htap hd

/-- In two rows of four the lower right corner lies two columns to the right and one row down, and has
    the last index. -/
theorem taps_fill_rectangle_corner :
    isConsistent ⟨[1, 2, 3, 4, 5, 6, 7, 8], 4, 2⟩ ∧ 4 ≤ sideLimit ∧ 2 ≤ sideLimit ∧
      ∃ taps, Kernel.taps ⟨[1, 2, 3, 4, 5, 6, 7, 8], 4, 2⟩ = .ok taps ∧
        ∃ tap ∈ taps, tap.offset.IsExactly ⟨2, -1⟩ ∧ tap.index = 7 := by
  have hconsistent : isConsistent ⟨[1, 2, 3, 4, 5, 6, 7, 8], 4, 2⟩ := by decide
  have hwidth : 4 ≤ sideLimit := by decide
  have hheight : 2 ≤ sideLimit := by decide
  obtain ⟨taps, htaps, -, -, -, hplaces, hindex, -⟩ :=
    @taps_fill_rectangle ⟨[1, 2, 3, 4, 5, 6, 7, 8], 4, 2⟩ hconsistent (List.cons_ne_nil _ _)
      hwidth hheight
  obtain ⟨tap, htap, hexact⟩ := (hplaces ⟨2, -1⟩).2 (by constructor <;> decide)
  have hseven : indexAt 4 2 ⟨2, -1⟩ = 7 := rfl
  refine ⟨hconsistent, hwidth, hheight, taps, htaps, tap, htap, hexact, ?_⟩
  exact_mod_cast (hindex tap htap _ hexact).symm.trans hseven

end Kernel

end Stencil
