import Stencil.Proofs.Kernel.Construction
import Stencil.Proofs.Kernel.Pointwise
import Stencil.Proofs.Precision.Reciprocal

/-!
# What the filter answers

The filter looks at the fields of its kernel, then counts the samples that the dimensions of the
image ask for, and compares their number with the samples there are.  Each of these steps can end
it, and nothing behind them can.  The displacements of a kernel with long sides are rounded when
they are taken to single precision and back, but they stay small enough to be added to every
coordinate of an image, and the sum is clamped into the image before anything is read.

## Key results

- `sampleCount_of_countable`: the samples of an image are counted when a word holds every product
- `inReach_toInt_ofInt`: a displacement stays in reach, even if it is rounded
- `Filling.exists_samples`: steps in reach have a source for every sample
- `convolve_outcomes`: which kernels and images are refused, abandoned, and filtered
-/

namespace Stencil

open Precision (value? ofInt toInt)

/-! ## The samples of an image -/

/-- The number of samples that the dimensions of an image ask for. -/
def Image.asked (image : Image) : Nat := image.width * image.height * image.channels

/-- A word of 64 bits holds the number of pixels, and the number of samples. -/
def Image.Countable (image : Image) : Prop :=
  image.width * image.height < Word.size ∧ image.width * image.height * image.channels < Word.size

/-- There are samples, and as many as the dimensions ask for. -/
def Image.Full (image : Image) : Prop := image.asked ≠ 0 ∧ image.asked = image.samples.size

namespace Convolution

/-- The samples of an image are counted when a word holds every product on the way. -/
theorem sampleCount_of_countable {image : Image} (h : image.Countable) :
    sampleCount image = .ok image.asked := by
  rw [sampleCount, Word.product_of_lt h.1, ok_bind, Word.product_of_lt h.2]
  rfl

/-- Too many pixels or samples to count are an overflow, also if there is no channel. -/
theorem sampleCount_of_not_countable {image : Image} (h : ¬ image.Countable) :
    sampleCount image = .error .overflow := by
  unfold sampleCount Word.product
  by_cases hpixels : image.width * image.height < Word.size
  · have hsamples : ¬ image.width * image.height * image.channels < Word.size :=
      fun hlt => h ⟨hpixels, hlt⟩
    rw [if_pos hpixels, ok_bind, if_neg hsamples]
  · rw [if_neg hpixels]
    rfl

/-! ## Displacements of long kernels -/

/-- A distance of at most `2 ^ 61` stays in reach when it is taken to single precision and back. -/
theorem inReach_toInt_ofInt {z : Int} (h : z.natAbs ≤ Kernel.weightLimit) :
    InReach (toInt (ofInt z)) := by
  have hlimit : Kernel.weightLimit = 2 ^ 61 := rfl
  obtain ⟨whole, hvalue, hclose, -⟩ :=
    Precision.value?_ofInt_close (n := z) (h.trans (by rw [hlimit]; norm_num))
  -- Rounding adds less than the distance itself
  have hdouble : |(whole : ℚ)| ≤ 2 * |(z : ℚ)| := by
    have htriangle := abs_sub_abs_le_abs_sub (whole : ℚ) z
    have hpart : |(z : ℚ)| / 2 ^ 24 ≤ |(z : ℚ)| := div_le_self (abs_nonneg _) (by norm_num)
    linarith
  have hbound : whole.natAbs ≤ 2 * z.natAbs := by
    rw [← Int.cast_abs, ← Int.cast_abs, Int.abs_eq_natAbs, Int.abs_eq_natAbs] at hdouble
    exact_mod_cast hdouble
  have hsigned : Word.signedLimit = 2 ^ 63 := rfl
  rw [Precision.toInt_of_value? hvalue (by omega) (by omega)]
  unfold InReach
  omega

/-- No cell of a kernel is further from the centre than a side is long. -/
theorem natAbs_shiftOf_le {index width height : Nat} (hindex : index < width * height) :
    (Kernel.shiftOf index width height).right.natAbs ≤ width ∧
      (Kernel.shiftOf index width height).up.natAbs ≤ height := by
  have hpositive : 0 < width := Nat.pos_of_mul_pos_right (Nat.zero_lt_of_lt hindex)
  have hcolumn : index % width < width := Nat.mod_lt index hpositive
  have hrow : index / width < height := Nat.div_lt_of_lt_mul hindex
  unfold Kernel.shiftOf
  generalize index % width = column at *
  generalize index / width = row at *
  dsimp only
  omega

/-- The steps of a kernel that fits in memory are in reach, however long its sides are. -/
theorem inReach_of_mem_steps {k : Kernel} (hconsistent : k.isConsistent) (hne : k.weights ≠ [])
    (hcount : k.weights.length ≤ Kernel.weightLimit) {step : Step}
    (hstep : step ∈ k.tapList.map Step.ofTap) :
    InReach step.shift.right ∧ InReach step.shift.up := by
  obtain ⟨-, -, hwidth_le, hheight_le⟩ :=
    Kernel.sides_le_of_isConsistent hconsistent hne
  obtain ⟨tap, htap, rfl⟩ := List.mem_map.1 hstep
  obtain ⟨⟨weight, index⟩, hcell, rfl⟩ := List.mem_map.1 htap
  have hindex : index < k.width * k.height := by
    rw [(Kernel.isConsistent_iff k).1 hconsistent]
    exact (List.mem_zipIdx' hcell).1
  obtain ⟨hright, hup⟩ := natAbs_shiftOf_le hindex
  exact ⟨inReach_toInt_ofInt (by omega), inReach_toInt_ofInt (by omega)⟩

/-! ## Samples -/

variable {image : Image} {count : Nat} {steps : List Step}

/-- Steps in reach have a source for every pixel, so every sample of the result is computed. -/
theorem Filling.exists_samples (h : Filling image count) (hmemory : count ≤ Kernel.weightLimit)
    (hreach : ∀ step ∈ steps, InReach step.shift.right ∧ InReach step.shift.up) :
    ∃ dst, samples steps image count = .ok dst := by
  refine exists_mapM_eq_ok fun index hindex => ?_
  obtain ⟨hx, hy, hchannel⟩ := h.cell_of_index (List.mem_range.1 hindex)
  refine exists_foldlM_eq_ok _ fun step hstep total => ?_
  have hstart := h.sourceStart_eq_ok hmemory hx hy (hreach step hstep).1 (hreach step hstep).2
  exact ⟨_, by rw [h.readSample_eq_ok hstart hchannel, ok_bind]; rfl⟩

/-- All that is done with a step for the pixel at `(x, y)` stays in range.  Coordinates and sides are
    the same when they are read as signed words, the moved coordinates are signed words and are kept
    inside the image, and there is room for the channels behind the start of the pixel that is read,
    and behind the start of the pixel that is written. -/
structure StaysInRange (image : Image) (step : Step) (x y : Nat) : Prop where
  position : Word.toSigned x = x ∧ Word.toSigned y = y
  extent : Word.toSigned image.width = image.width ∧ Word.toSigned image.height = image.height
  column : clampedMove x step.shift.right image.width =
    .ok (clampTo (x + step.shift.right) image.width)
  row : clampedMove y step.shift.up image.height = .ok (clampTo (y + step.shift.up) image.height)
  source : ∃ start, sourceStart image x y step = .ok start ∧
    start + image.channels ≤ image.samples.size
  target : ∃ start, pixelStart image.width image.channels x y = .ok start ∧
    start + image.channels ≤ image.samples.size

/-- A step in reach stays in range at every pixel. -/
theorem Filling.staysInRange (h : Filling image count) (hmemory : count ≤ Kernel.weightLimit)
    {step : Step} (hright : InReach step.shift.right) (hup : InReach step.shift.up) {x y : Nat}
    (hx : x < image.width) (hy : y < image.height) : StaysInRange image step x y := by
  obtain ⟨hwidth, hheight⟩ := h.sides_le hx hy
  have hlimit : (Kernel.weightLimit : Int) < Word.signedLimit := by decide
  have hstart := h.sourceStart_eq_ok hmemory hx hy hright hup
  refine ⟨⟨?_, ?_⟩, ⟨?_, ?_⟩, ?_, ?_, ⟨_, hstart, ?_⟩, ⟨_, h.pixelStart_eq_ok hx hy, ?_⟩⟩
  · exact Word.toSigned_of_lt (by omega)
  · exact Word.toSigned_of_lt (by omega)
  · exact Word.toSigned_of_lt (by omega)
  · exact Word.toSigned_of_lt (by omega)
  · exact clampedMove_eq_ok hx (hwidth.trans hmemory) hright
  · exact clampedMove_eq_ok hy (hheight.trans hmemory) hup
  · rw [h.size_eq]
    exact h.sourceStart_le hstart
  · rw [h.size_eq]
    exact h.pixel_le hx hy

end Convolution

namespace Kernel

open Stencil.Convolution

variable {k : Kernel} {image : Image}

/-! ## Answers -/

/-- Weights that do not fill their rectangle are refused, whatever the image. -/
theorem convolve_of_not_filled (h : k.width * k.height ≠ k.weights.length) (image : Image) :
    k.convolve image = .error (.refused (.sizeMismatch k.width k.height k.weights.length)) := by
  have hnot : k.isConsistent = false := by simp [isConsistent, h]
  unfold convolve
  rw [hnot]
  rfl

/-- A rectangle without cells is refused, whatever the image. -/
theorem convolve_of_empty (hconsistent : k.isConsistent) (h : k.weights = []) (image : Image) :
    k.convolve image = .error (.refused .empty) := by
  unfold convolve
  rw [hconsistent, h]
  rfl

/-- An image whose samples fill it is filtered: the result has as many samples as the image, and every
    step stays in range at every pixel. -/
theorem exists_convolve (hconsistent : k.isConsistent) (hne : k.weights ≠ [])
    (hweights : k.weights.length ≤ weightLimit) (hsamples : image.samples.size ≤ weightLimit)
    (hfull : image.Full) :
    ∃ dst, k.convolve image = .ok dst ∧ dst.length = image.samples.size ∧
      ∃ taps, k.taps = .ok taps ∧ ∀ tap ∈ taps, ∀ x < image.width, ∀ y < image.height,
        StaysInRange image (Step.ofTap tap) x y := by
  obtain ⟨hpos, hasked⟩ := hfull
  have hfilling := filling_of_product hasked (by omega) hsamples
  have htaps := taps_eq_ok hconsistent hne hweights
  have hreach : ∀ step ∈ k.tapList.map Step.ofTap,
      InReach step.shift.right ∧ InReach step.shift.up :=
    fun step hstep => inReach_of_mem_steps hconsistent hne hweights hstep
  obtain ⟨dst, hdst⟩ := hfilling.exists_samples hsamples hreach
  refine ⟨dst, ?_, ?_, k.tapList, htaps, fun tap htap x hx y hy => ?_⟩
  · rw [convolve_eq_samples hconsistent hne htaps hfilling.sampleCount_eq_ok rfl (by omega), hdst]
    rfl
  · rw [length_of_mapM_eq_ok hdst, List.length_range]
  · obtain ⟨hright, hup⟩ := hreach _ (List.mem_map_of_mem htap)
    exact hfilling.staysInRange hsamples hright hup hx hy

/-- The filter refuses a kernel whose weights do not fill it, then a kernel without weights.  It is
    abandoned for an image whose pixels or samples no word can count, and for no other reason.  Then
    it refuses an image without samples, or with another number of them than its dimensions ask for.
    Every other image is filtered, and nothing that is done for a pixel of it leaves its range. -/
theorem convolve_outcomes (hweights : k.weights.length ≤ weightLimit)
    (hsamples : image.samples.size ≤ weightLimit) :
    (∀ width height count, k.convolve image = .error (.refused (.sizeMismatch width height count)) ↔
      k.width * k.height ≠ k.weights.length ∧
        k.width = width ∧ k.height = height ∧ k.weights.length = count) ∧
    (k.convolve image = .error (.refused .empty) ↔
      k.width * k.height = k.weights.length ∧ k.weights = []) ∧
    (∀ reason, k.convolve image = .error (.fault reason) ↔
      k.width * k.height = k.weights.length ∧ k.weights ≠ [] ∧ ¬ image.Countable ∧
        .overflow = reason) ∧
    (∀ expected found, k.convolve image = .error (.refused (.sampleCount expected found)) ↔
      k.width * k.height = k.weights.length ∧ k.weights ≠ [] ∧ image.Countable ∧ ¬ image.Full ∧
        image.asked = expected ∧ image.samples.size = found) ∧
    ((∃ dst, k.convolve image = .ok dst) ↔
      k.width * k.height = k.weights.length ∧ k.weights ≠ [] ∧ image.Countable ∧ image.Full) ∧
    ∀ dst, k.convolve image = .ok dst → dst.length = image.samples.size ∧
      ∃ taps, k.taps = .ok taps ∧ ∀ tap ∈ taps, ∀ x < image.width, ∀ y < image.height,
        StaysInRange image (Step.ofTap tap) x y := by
  by_cases hfilled : k.width * k.height = k.weights.length
  · have hconsistent := (isConsistent_iff k).2 hfilled
    by_cases hempty : k.weights = []
    · rw [convolve_of_empty hconsistent hempty]
      simp [hfilled, hempty]
    · have htaps := taps_eq_ok hconsistent hempty hweights
      by_cases hcount : image.Countable
      · by_cases hfull : image.Full
        · -- The filter runs, and what it is given is in range throughout
          obtain ⟨dst, hdst, hrange⟩ :=
            exists_convolve hconsistent hempty hweights hsamples hfull
          rw [hdst]
          simp [hfilled, hempty, hcount, hfull, hrange]
        · have hrefused : image.samples.size ≠ image.asked ∨ image.asked = 0 := by
            unfold Image.Full at hfull
            omega
          rw [convolve_of_taps hconsistent hempty htaps, sampleCount_of_countable hcount]
          simp only [if_pos hrefused]
          simp [hfilled, hempty, hcount, hfull]
      · rw [convolve_of_taps hconsistent hempty htaps, sampleCount_of_not_countable hcount]
        simp [hfilled, hempty, hcount]
  · rw [convolve_of_not_filled hfilled]
    simp [hfilled]

/-- Too many pixels to count are an overflow even in an image without channels, which has no samples
    at all. -/
theorem convolve_outcomes_uncountable :
    [(1 : Float32)].length ≤ weightLimit ∧ (#[] : Array Float32).size ≤ weightLimit ∧
      convolve ⟨[1], 1, 1⟩ ⟨#[], 2 ^ 32, 2 ^ 32, 0⟩ = .error (.fault .overflow) := by
  have hweights : [(1 : Float32)].length ≤ weightLimit := by decide
  have hsamples : (#[] : Array Float32).size ≤ weightLimit := by decide
  obtain ⟨-, -, hfault, -⟩ :=
    @convolve_outcomes ⟨[1], 1, 1⟩ ⟨#[], 2 ^ 32, 2 ^ 32, 0⟩ hweights hsamples
  refine ⟨hweights, hsamples, (hfault .overflow).2 ⟨rfl, List.cons_ne_nil _ _, ?_, rfl⟩⟩
  unfold Image.Countable
  decide

end Kernel

end Stencil
