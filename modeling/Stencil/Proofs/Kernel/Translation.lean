import Stencil.Proofs.Kernel.Rectangle
import Stencil.Proofs.Precision.Neutral
import Stencil.Proofs.Precision.Order

/-!
# Kernels with one tap

A kernel whose only weight is one moves the image: each pixel takes the samples that the displacement
of the weight leads to, or the nearest ones at the border.  The other weights are zeros, of either
sign, and what they read adds nothing as long as it is finite.  The sums start at zero, so a sample
keeps its value, but not the sign of a zero.

## Key results

- `IsUnitAt.stencilAt_beq`: the sum of a pixel is the sample that the one weight reads
- `convolve_translates`: the filter moves the image, and leaves it if the weight is in the middle
-/

namespace Stencil

open Precision

/-! ## One weight -/

/-- One weight is one, and the others are zeros of either sign. -/
structure Kernel.IsUnitAt (k : Kernel) (i : Nat) : Prop where
  one : k.weights[i]? = some (ofInt 1)
  zero : ∀ j w, k.weights[j]? = some w → j ≠ i → w = ofInt 0 ∨ w = negativeZero

namespace Kernel

variable {k : Kernel} {image : Image} {i : Nat}

theorem IsUnitAt.lt_length (h : k.IsUnitAt i) : i < k.weights.length :=
  (List.getElem?_eq_some_iff.1 h.one).1

theorem IsUnitAt.weights_ne_nil (h : k.IsUnitAt i) : k.weights ≠ [] :=
  List.ne_nil_of_length_pos (Nat.zero_lt_of_lt h.lt_length)

/-- All other weights have the value zero. -/
theorem IsUnitAt.value?_of_ne (h : k.IsUnitAt i) {j : Nat} (hj : j < k.weights.length)
    (hne : j ≠ i) : value? (k.weights.getD j 0) = some 0 := by
  rw [List.getD_eq_getElem _ _ hj]
  rcases h.zero j _ (List.getElem?_eq_getElem hj) hne with hw | hw
  · rw [hw]
    rfl
  · rw [hw]
    rfl

end Kernel

/-! ## Moved samples -/

namespace Convolution

open Kernel (shiftOf)

variable {k : Kernel} {image : Image} {count x y channel i : Nat}

/-- A coordinate inside the image is kept. -/
theorem clampTo_of_lt {position extent : Nat} (h : position < extent) :
    clampTo position extent = position := by
  unfold clampTo
  omega

/-- A sample that a weight reads has a value. -/
theorem Filling.exists_source (h : Filling image count) (hfinite : ∀ s ∈ image.samples, s.isFinite)
    (hx : x < image.width) (hy : y < image.height) (hchannel : channel < image.channels)
    (k : Kernel) (j : Nat) :
    ∃ s, image.samples[sourceIndex k image x y channel j]? = some s ∧
      value? s = some (valueOf s) := by
  have hsource := h.sourceIndex_lt hx hy hchannel k j
  rw [← h.size_eq] at hsource
  exact ⟨_, Array.getElem?_eq_getElem hsource, value?_of_isFinite (hfinite _ (Array.getElem_mem hsource))⟩

/-- The sum of a pixel is the sample that the one weight reads. -/
theorem Filling.stencilAt_beq (h : Filling image count) (hfinite : ∀ s ∈ image.samples, s.isFinite)
    (hunit : k.IsUnitAt i) (hx : x < image.width) (hy : y < image.height)
    (hchannel : channel < image.channels) :
    ∃ s, image.samples[sourceIndex k image x y channel i]? = some s ∧
      stencilAt k image x y channel == s := by
  have hread : ∀ j s, image.samples[sourceIndex k image x y channel j]? = some s →
      image.samples.getD (sourceIndex k image x y channel j) 0 = s := by
    intro j s hs
    rw [Array.getD_eq_getD_getElem?, hs, Option.getD_some]
  obtain ⟨s, hs, hvalue⟩ := h.exists_source hfinite hx hy hchannel k i
  refine ⟨s, hs, (beq_iff_value ?_ hvalue).2 rfl⟩
  refine value?_foldl_add_single hunit.lt_length ?_ (fun j hj hne => ?_) rfl
  · rw [hread i s hs, List.getD_eq_getElem?_getD, hunit.one]
    exact value?_mul_one hvalue
  · obtain ⟨t, ht, hother⟩ := h.exists_source hfinite hx hy hchannel k j
    rw [hread j t ht]
    exact value?_mul_of_zero hother (hunit.value?_of_ne hj hne)

/-- A weight without displacement reads the sample itself. -/
theorem Filling.sourceIndex_eq (h : Filling image count) (hshift : shiftOf i k.width k.height = ⟨0, 0⟩)
    {index : Nat} (hindex : index < count) :
    sourceIndex k image (index / image.channels % image.width) (index / image.channels / image.width)
      (index % image.channels) i = index := by
  obtain ⟨hx, hy, -⟩ := h.cell_of_index hindex
  unfold sourceIndex
  rw [hshift]
  dsimp only
  rw [add_zero, add_zero, clampTo_of_lt hx, clampTo_of_lt hy, Nat.div_add_mod', Nat.div_add_mod']

end Convolution

/-! ## Moved images -/

namespace Kernel

variable {k : Kernel} {image : Image} {i : Nat}

/-- The central cell has no displacement. -/
theorem shiftOf_of_central (hcolumn : i % k.width = k.center.column)
    (hrow : i / k.width = k.center.row) : shiftOf i k.width k.height = ⟨0, 0⟩ := by
  unfold shiftOf
  rw [hcolumn, hrow]
  exact congrArg₂ Displacement.mk (sub_self _) (sub_self _)

open Stencil.Convolution in
/-- A kernel with one weight that is one, and zeros of either sign for the rest, moves the image by the
    displacement of that weight: every sample equals the one that the displacement leads to, its
    coordinates kept inside the image.  In the central cell the weight leaves the image as it is.
    (Equality does not tell the zeros apart.) -/
theorem convolve_translates (hconsistent : k.isConsistent) (hwidth : k.width ≤ sideLimit)
    (hheight : k.height ≤ sideLimit) (hunit : k.IsUnitAt i)
    (hsize : image.width * image.height * image.channels = image.samples.size)
    (hpos : 0 < image.samples.size) (hmemory : image.samples.size ≤ weightLimit)
    (hfinite : ∀ s ∈ image.samples, s.isFinite) :
    ∃ offset d dst, k.offset i = .ok offset ∧ offset.IsExactly d ∧ k.convolve image = .ok dst ∧
      dst.length = image.samples.size ∧
      (∀ x < image.width, ∀ y < image.height, ∀ c < image.channels, ∃ v s,
        dst[(y * image.width + x) * image.channels + c]? = some v ∧
        image.samples[(clampTo (y + d.up) image.height * image.width +
          clampTo (x + d.right) image.width) * image.channels + c]? = some s ∧ v == s) ∧
      (i % k.width = k.center.column → i / k.width = k.center.row →
        ∀ j < image.samples.size, ∃ v s, dst[j]? = some v ∧ image.samples[j]? = some s ∧ v == s) := by
  have hfilling := filling_of_product hsize hpos hmemory
  have hweights := weights_le_of_sides_le hconsistent hwidth hheight
  have hexact : (shiftOf i k.width k.height).toOffset.IsExactly (shiftOf i k.width k.height) :=
    isExactly_tapAt hconsistent hwidth hheight hunit.lt_length (ofInt 1)
  refine ⟨_, _, _, offset_eq_ok hconsistent hunit.weights_ne_nil hweights hunit.lt_length, hexact,
    convolve_eq_stencils hconsistent hunit.weights_ne_nil hwidth hheight hfilling hmemory,
    length_stencils k image, fun x hx y hy c hc => ?_, fun hcolumn hrow j hj => ?_⟩
  · obtain ⟨s, hs, hequal⟩ := hfilling.stencilAt_beq hfinite hunit hx hy hc
    exact ⟨_, s, hfilling.getElem?_stencils k hx hy hc, hs, hequal⟩
  · obtain ⟨hx, hy, hc⟩ := hfilling.cell_of_index hj
    obtain ⟨s, hs, hequal⟩ := hfilling.stencilAt_beq hfinite hunit hx hy hc
    rw [hfilling.sourceIndex_eq (shiftOf_of_central hcolumn hrow) hj] at hs
    exact ⟨_, s, getElem?_stencils k hj, hs, hequal⟩

/-- A row of three, wider than the image, whose last weight is one: each pixel takes the sample of its
    right neighbour, and the last one its own. -/
theorem convolve_translates_row :
    isConsistent ⟨[ofInt 0, negativeZero, ofInt 1], 3, 1⟩ ∧
      IsUnitAt ⟨[ofInt 0, negativeZero, ofInt 1], 3, 1⟩ 2 ∧
      2 * 1 * 1 = #[ofInt 5, ofInt (-7)].size ∧
      ∃ dst v w, convolve ⟨[ofInt 0, negativeZero, ofInt 1], 3, 1⟩
          ⟨#[ofInt 5, ofInt (-7)], 2, 1, 1⟩ = .ok dst ∧
        dst[0]? = some v ∧ v == ofInt (-7) ∧ dst[1]? = some w ∧ w == ofInt (-7) := by
  have hconsistent : isConsistent ⟨[ofInt 0, negativeZero, ofInt 1], 3, 1⟩ := by decide
  have hunit : IsUnitAt ⟨[ofInt 0, negativeZero, ofInt 1], 3, 1⟩ 2 := by
    refine ⟨rfl, fun j w hw hne => ?_⟩
    rcases j with _ | _ | _ | j
    · exact .inl (Option.some.inj hw).symm
    · exact .inr (Option.some.inj hw).symm
    · exact absurd rfl hne
    · exact absurd hw (by simp)
  have hfinite : ∀ s ∈ #[ofInt 5, ofInt (-7)], s.isFinite := by decide
  obtain ⟨offset, d, dst, hoffset, hexact, hconvolve, -, hmoved, -⟩ :=
    @convolve_translates ⟨[ofInt 0, negativeZero, ofInt 1], 3, 1⟩
      ⟨#[ofInt 5, ofInt (-7)], 2, 1, 1⟩ 2 hconsistent (by decide) (by decide) hunit rfl (by decide)
      (by decide) hfinite
  -- The last weight of three reads the sample to the right
  have hright : shiftOf 2 3 1 = ⟨1, 0⟩ := by decide
  have hshift := offset_eq_ok hconsistent hunit.weights_ne_nil (by decide) hunit.lt_length
  obtain rfl := Except.ok.inj (hoffset.symm.trans hshift)
  obtain rfl : d = ⟨1, 0⟩ := by
    rw [← hright]
    exact hexact.unique (isExactly_tapAt hconsistent (by decide) (by decide) hunit.lt_length (ofInt 1))
  obtain ⟨v, s, hv, hs, hequal⟩ := hmoved 0 (by decide) 0 (by decide) 0 (by decide)
  obtain ⟨w, t, hw, ht, hborder⟩ := hmoved 1 (by decide) 0 (by decide) 0 (by decide)
  obtain rfl : ofInt (-7) = s := Option.some.inj hs
  obtain rfl : ofInt (-7) = t := Option.some.inj ht
  exact ⟨hconsistent, hunit, rfl, dst, v, w, hconvolve, hv, hequal, hw, hborder⟩

end Kernel

end Stencil
