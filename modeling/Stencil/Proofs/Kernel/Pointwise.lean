import Stencil.Proofs.Kernel.Taps
import Stencil.Proofs.Precision.Whole

/-!
# The filter, pixel by pixel

The loops of the filter compute its samples one by one, and for sides up to `2 ^ 25 + 1` the steps of
the loops are the displacements of the weights: a displacement is a whole number of at most 24 bits,
so it survives the way through single precision.  So a sample of the result is the plain sum, in the
order of the weights, of the samples that the displacements lead to, each coordinate kept inside the
image.

## Key results

- `shiftOf_bounds`: the displacements of a kernel have at most 24 bits
- `Convolution.ofTap_tapAt`: the filter moves by the displacement of a weight
- `clampedMove_eq_ok`: a coordinate is moved exactly, and then kept inside the image
- `Kernel.convolve_eq_stencils`: the result as the list of all stencils
- `Kernel.convolve_pointwise`: the filter computes the clamped stencil at every pixel
-/

namespace Stencil

open Precision (wholeLimit)

/-! ## Displacements -/

/-- The longest side for which every displacement is a whole number of at most 24 bits. -/
def sideLimit : Nat := 2 ^ 25 + 1

/-- A whole number of at most 24 bits. -/
def IsShort (z : Int) : Prop := -wholeLimit ≤ z ∧ z ≤ wholeLimit

/-- A distance that can be added to every coordinate of an image in memory without leaving a signed
    word: at most `2 ^ 62`. -/
def InReach (z : Int) : Prop := -0x4000000000000000 ≤ z ∧ z ≤ 0x4000000000000000

theorem IsShort.inReach {z : Int} (h : IsShort z) : InReach z := by
  unfold IsShort wholeLimit at h
  unfold InReach
  omega

/-- The displacements of a kernel are short. -/
theorem shiftOf_bounds {k : Kernel} {index : Nat} (hconsistent : k.isConsistent)
    (hindex : index < k.weights.length) (hwidth : k.width ≤ sideLimit)
    (hheight : k.height ≤ sideLimit) :
    IsShort (Kernel.shiftOf index k.width k.height).right ∧
      IsShort (Kernel.shiftOf index k.width k.height).up := by
  have hproduct : k.width * k.height = k.weights.length := (Kernel.isConsistent_iff k).1 hconsistent
  rw [← hproduct] at hindex
  have hpositive : 0 < k.width := Nat.pos_of_mul_pos_right (Nat.zero_lt_of_lt hindex)
  have hcolumn : index % k.width < k.width := Nat.mod_lt index hpositive
  have hrow : index / k.width < k.height := Nat.div_lt_of_lt_mul hindex
  unfold Kernel.shiftOf IsShort wholeLimit
  unfold sideLimit at hwidth hheight
  generalize index % k.width = column at *
  generalize index / k.width = row at *
  dsimp only
  omega

/-- The filter moves by the displacement of a weight, and scales by the weight. -/
theorem Convolution.ofTap_tapAt {k : Kernel} {index : Nat} (weight : Float32)
    (hright : IsShort (Kernel.shiftOf index k.width k.height).right)
    (hup : IsShort (Kernel.shiftOf index k.width k.height).up) :
    Step.ofTap (k.tapAt index weight) = ⟨Kernel.shiftOf index k.width k.height, weight⟩ := by
  simp only [Step.ofTap, Kernel.tapAt, Kernel.Displacement.toOffset,
    Precision.toInt_ofInt hright.1 hright.2, Precision.toInt_ofInt hup.1 hup.2]

namespace Convolution

/-! ## Sources -/

/-- A coordinate kept inside `0, …, extent - 1`. -/
def clampTo (z : Int) (extent : Nat) : Nat := (max 0 (min z ((extent : Int) - 1))).toNat

theorem clampTo_lt {extent : Nat} (h : 0 < extent) (z : Int) : clampTo z extent < extent := by
  unfold clampTo
  omega

/-- A coordinate is moved exactly, and then kept inside the image. -/
theorem clampedMove_eq_ok {position extent : Nat} {shift : Int} (hposition : position < extent)
    (hextent : extent ≤ Kernel.weightLimit) (hshift : InReach shift) :
    clampedMove position shift extent = .ok (clampTo (position + shift) extent) := by
  -- The coordinate and the displacement together stay below the limit of a signed word
  have hlimit : Word.signedLimit = 0x8000000000000000 := rfl
  unfold Kernel.weightLimit at hextent
  unfold InReach at hshift
  unfold clampedMove clampTo
  rw [Word.toSigned_of_lt (by omega), Word.toSigned_of_lt (by omega),
    Word.checked_of_bounds (by omega) (by omega), ok_bind,
    Word.checked_of_bounds (by omega) (by omega), ok_bind, if_neg (by omega)]
  rfl

/-- The position of the sample that the weight with an index scales, for a channel of the pixel at
    `(x, y)`. -/
def sourceIndex (k : Kernel) (image : Image) (x y channel index : Nat) : Nat :=
  let shift := Kernel.shiftOf index k.width k.height
  (clampTo (y + shift.up) image.height * image.width + clampTo (x + shift.right) image.width) *
    image.channels + channel

variable {k : Kernel} {image : Image} {count x y channel : Nat}

/-- The sides of an image are no longer than its list of samples. -/
theorem Filling.sides_le (h : Filling image count) (hx : x < image.width) (hy : y < image.height) :
    image.width ≤ count ∧ image.height ≤ count := by
  have hchannels := h.channels_pos
  rw [← h.count_eq]
  constructor
  · rw [Nat.mul_assoc]
    exact Nat.le_mul_of_pos_right _ (Nat.mul_pos (by omega) hchannels)
  · rw [Nat.mul_comm image.width, Nat.mul_assoc]
    exact Nat.le_mul_of_pos_right _ (Nat.mul_pos (by omega) hchannels)

/-- A step whose displacement is in reach reads from the clamped position. -/
theorem Filling.sourceStart_eq_ok (h : Filling image count) (hmemory : count ≤ Kernel.weightLimit)
    (hx : x < image.width) (hy : y < image.height) {step : Step} (hright : InReach step.shift.right)
    (hup : InReach step.shift.up) :
    sourceStart image x y step =
      .ok ((clampTo (y + step.shift.up) image.height * image.width +
        clampTo (x + step.shift.right) image.width) * image.channels) := by
  obtain ⟨hwidth, hheight⟩ := h.sides_le hx hy
  unfold sourceStart
  rw [clampedMove_eq_ok hx (by omega) hright, ok_bind, clampedMove_eq_ok hy (by omega) hup, ok_bind,
    h.pixelStart_eq_ok (clampTo_lt (by omega) _) (clampTo_lt (by omega) _)]

/-- Every sample that is read lies in the image. -/
theorem Filling.sourceIndex_lt (h : Filling image count) (hx : x < image.width)
    (hy : y < image.height) (hchannel : channel < image.channels) (k : Kernel) (index : Nat) :
    sourceIndex k image x y channel index < count := by
  have hroom := h.pixel_le
    (clampTo_lt (by omega) (x + (Kernel.shiftOf index k.width k.height).right))
    (clampTo_lt (by omega) (y + (Kernel.shiftOf index k.width k.height).up))
  unfold sourceIndex
  dsimp only
  omega

/-! ## Steps -/

/-- The step of the weight with an index. -/
def stepAt (k : Kernel) (index : Nat) : Step :=
  ⟨Kernel.shiftOf index k.width k.height, k.weights.getD index 0⟩

/-- The steps of a kernel are those of its weights, in their order. -/
theorem map_ofTap_tapList (hconsistent : k.isConsistent) (hwidth : k.width ≤ sideLimit)
    (hheight : k.height ≤ sideLimit) :
    k.tapList.map Step.ofTap = (List.range k.weights.length).map (stepAt k) := by
  refine List.ext_getElem? fun i => ?_
  rw [List.getElem?_map, Kernel.getElem?_tapList, List.getElem?_map]
  by_cases hi : i < k.weights.length
  · obtain ⟨hright, hup⟩ := shiftOf_bounds hconsistent hi hwidth hheight
    rw [List.getElem?_range hi, List.getElem?_eq_getElem hi, Option.map_some, Option.map_some,
      Option.map_some, ofTap_tapAt _ hright hup]
    simp [stepAt, hi]
  · simp [hi]

/-- The clamped stencil at a channel of the pixel at `(x, y)`: started at zero, the samples that the
    displacements lead to are added up in the order of the weights, each scaled by its weight. -/
def stencilAt (k : Kernel) (image : Image) (x y channel : Nat) : Float32 :=
  (List.range k.weights.length).foldl
    (fun total i => total +
      image.samples.getD (sourceIndex k image x y channel i) 0 * k.weights.getD i 0) 0

/-- The sum that steps give at a channel of the pixel at `(x, y)`.  Each step adds its shift to the
    coordinates, keeps them inside the image, and scales the sample that it finds there by its weight;
    the sum is started at zero and follows the order of the steps. -/
def steppedSum (steps : List Step) (image : Image) (x y channel : Nat) : Float32 :=
  steps.foldl
    (fun total step => total +
      image.samples.getD ((clampTo (y + step.shift.up) image.height * image.width +
        clampTo (x + step.shift.right) image.width) * image.channels + channel) 0 * step.weight) 0

/-- The stencil is the sum of the steps of the weights. -/
theorem stencilAt_eq_steppedSum (k : Kernel) (image : Image) (x y channel : Nat) :
    stencilAt k image x y channel =
      steppedSum ((List.range k.weights.length).map (stepAt k)) image x y channel := by
  rw [steppedSum, List.foldl_map]
  rfl

/-- A sample of the result is the stencil at its pixel and channel. -/
theorem Filling.sample_eq_ok (h : Filling image count) (hmemory : count ≤ Kernel.weightLimit)
    (hconsistent : k.isConsistent) (hwidth : k.width ≤ sideLimit) (hheight : k.height ≤ sideLimit)
    (hx : x < image.width) (hy : y < image.height) (hchannel : channel < image.channels) :
    sample (k.tapList.map Step.ofTap) image x y channel = .ok (stencilAt k image x y channel) := by
  rw [map_ofTap_tapList hconsistent hwidth hheight, sample, List.foldlM_map]
  refine foldlM_eq_ok_foldl _ fun i hi total => ?_
  obtain ⟨hright, hup⟩ := shiftOf_bounds hconsistent (List.mem_range.1 hi) hwidth hheight
  have hstart : sourceStart image x y (stepAt k i) = _ :=
    h.sourceStart_eq_ok hmemory hx hy hright.inReach hup.inReach
  rw [h.readSample_eq_ok hstart hchannel, ok_bind]
  rfl

/-- The stencils at all pixels and channels, in the order of the samples. -/
def stencils (k : Kernel) (image : Image) : List Float32 :=
  (List.range image.samples.size).map fun index =>
    stencilAt k image (index / image.channels % image.width) (index / image.channels / image.width)
      (index % image.channels)

@[simp] theorem length_stencils (k : Kernel) (image : Image) :
    (stencils k image).length = image.samples.size := by simp [stencils]

/-- The stencil of a sample is found at its index. -/
theorem getElem?_stencils (k : Kernel) {index : Nat} (hindex : index < image.samples.size) :
    (stencils k image)[index]? = some (stencilAt k image (index / image.channels % image.width)
      (index / image.channels / image.width) (index % image.channels)) := by
  rw [stencils, List.getElem?_map, List.getElem?_range hindex]
  rfl

/-- The stencil of a channel is found behind the start of its pixel. -/
theorem Filling.getElem?_stencils (h : Filling image image.samples.size) (k : Kernel)
    (hx : x < image.width) (hy : y < image.height) (hchannel : channel < image.channels) :
    (stencils k image)[(y * image.width + x) * image.channels + channel]? =
      some (stencilAt k image x y channel) := by
  -- The index is taken apart into the channel, the column and the row again
  have hroom := h.pixel_le hx hy
  obtain ⟨hpixel, hrest⟩ := row_column hchannel (y * image.width + x)
  obtain ⟨hrow, hcolumn⟩ := row_column hx y
  rw [Convolution.getElem?_stencils k (by omega), hpixel, hrest, hrow, hcolumn]

/-- All samples of the result are the stencils, the pixel and the channel being found from the
    index. -/
theorem Filling.samples_eq_ok (h : Filling image image.samples.size)
    (hmemory : image.samples.size ≤ Kernel.weightLimit) (hconsistent : k.isConsistent)
    (hwidth : k.width ≤ sideLimit) (hheight : k.height ≤ sideLimit) :
    samples (k.tapList.map Step.ofTap) image image.samples.size = .ok (stencils k image) := by
  refine mapM_eq_ok_map fun index hindex => ?_
  obtain ⟨hx, hy, hchannel⟩ := h.cell_of_index (List.mem_range.1 hindex)
  exact h.sample_eq_ok hmemory hconsistent hwidth hheight hx hy hchannel

/-- The samples in memory fill the image when their number is the product of its dimensions. -/
theorem filling_of_product (hsize : image.width * image.height * image.channels = image.samples.size)
    (hpos : 0 < image.samples.size) (hmemory : image.samples.size ≤ Kernel.weightLimit) :
    Filling image image.samples.size :=
  ⟨hsize, Nat.lt_of_le_of_lt hmemory (by decide), rfl, hpos⟩

/-- The number of samples of a full image is computed. -/
theorem Filling.sampleCount_eq_ok (h : Filling image count) : sampleCount image = .ok count := by
  have hlt := h.count_lt
  have hpixels : image.width * image.height ≤ count := by
    rw [← h.count_eq]
    exact Nat.le_mul_of_pos_right _ h.channels_pos
  rw [sampleCount, Word.product_of_lt (by omega), ok_bind, Word.product_eq_ok_iff]
  exact ⟨h.count_eq, hlt⟩

end Convolution

/-- Sides up to the limit give fewer weights than memory can address. -/
theorem Kernel.weights_le_of_sides_le {k : Kernel} (hconsistent : k.isConsistent)
    (hwidth : k.width ≤ sideLimit) (hheight : k.height ≤ sideLimit) :
    k.weights.length ≤ Kernel.weightLimit := by
  rw [← (Kernel.isConsistent_iff k).1 hconsistent]
  exact le_trans (Nat.mul_le_mul hwidth hheight) (by decide)

open Stencil.Convolution in
/-- The filter computes the stencils. -/
theorem Kernel.convolve_eq_stencils {k : Kernel} {image : Image} (hconsistent : k.isConsistent)
    (hne : k.weights ≠ []) (hwidth : k.width ≤ sideLimit) (hheight : k.height ≤ sideLimit)
    (h : Filling image image.samples.size) (hmemory : image.samples.size ≤ weightLimit) :
    k.convolve image = .ok (stencils k image) := by
  have htaps := taps_eq_ok hconsistent hne (weights_le_of_sides_le hconsistent hwidth hheight)
  rw [convolve_eq_samples hconsistent hne htaps h.sampleCount_eq_ok rfl h.count_pos,
    h.samples_eq_ok hmemory hconsistent hwidth hheight]
  rfl

open Stencil.Convolution in
/-- The filter computes the clamped stencil pixel by pixel.  The result has as many samples as the
    image, and each of them is the stencil at its own pixel and channel, all samples that this sum
    reads lying in the image.  (No image whose samples are held in memory has more than `2 ^ 61`.) -/
theorem Kernel.convolve_pointwise {k : Kernel} {image : Image} (hconsistent : k.isConsistent)
    (hne : k.weights ≠ []) (hwidth : k.width ≤ sideLimit) (hheight : k.height ≤ sideLimit)
    (hsize : image.width * image.height * image.channels = image.samples.size)
    (hpos : 0 < image.samples.size) (hmemory : image.samples.size ≤ weightLimit) :
    ∃ dst, k.convolve image = .ok dst ∧ dst.length = image.samples.size ∧
      ∀ x < image.width, ∀ y < image.height, ∀ c < image.channels,
        (∀ i < k.weights.length, sourceIndex k image x y c i < image.samples.size) ∧
        dst[(y * image.width + x) * image.channels + c]? = some (stencilAt k image x y c) := by
  have hfilling := filling_of_product hsize hpos hmemory
  refine ⟨_, convolve_eq_stencils hconsistent hne hwidth hheight hfilling hmemory,
    length_stencils k image, fun x hx y hy c hc => ⟨fun i _ => ?_, ?_⟩⟩
  · exact hfilling.sourceIndex_lt hx hy hc k i
  · exact hfilling.getElem?_stencils k hx hy hc

/-- A kernel taller than the image: at the lower pixel its first weight reads the pixel above, and its
    last weight, for want of a pixel below, the pixel itself. -/
theorem Kernel.convolve_pointwise_column :
    Kernel.isConsistent ⟨[2, 0, 1], 1, 3⟩ ∧ 1 * 2 * 2 = #[(1 : Float32), 2, 3, 4].size ∧
      ∃ dst, Kernel.convolve ⟨[2, 0, 1], 1, 3⟩ ⟨#[1, 2, 3, 4], 1, 2, 2⟩ = .ok dst ∧
        dst.length = 4 ∧ dst[1]? = some 10 := by
  have hconsistent : Kernel.isConsistent ⟨[2, 0, 1], 1, 3⟩ := by decide
  obtain ⟨dst, hconvolve, hlength, hpixels⟩ :=
    @Kernel.convolve_pointwise ⟨[2, 0, 1], 1, 3⟩ ⟨#[1, 2, 3, 4], 1, 2, 2⟩ hconsistent
      (List.cons_ne_nil _ _) (by decide) (by decide) rfl (by decide) (by decide)
  have hvalue := (hpixels 0 (by decide) 0 (by decide) 1 (by decide)).2
  refine ⟨hconsistent, rfl, dst, hconvolve, hlength, hvalue.trans ?_⟩
  decide +kernel

end Stencil
