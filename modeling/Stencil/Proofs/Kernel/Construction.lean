import Mathlib.Logic.Function.Iterate
import Stencil.Proofs.Kernel.Grammar
import Stencil.Proofs.Shader.Generation

/-!
# Kernels that are made

A kernel can be written down with any sides, but the ways of making one give a rectangle that is
filled and has a cell: the reader of matrices, the check of given weights, and the stock kernels.
Normalizing changes none of this.  Whoever uses a kernel relies on it: the offsets, the program, and
the filter refuse no kernel that was made.

## Key results

- `Constructed.filled`: every way of making a kernel fills its rectangle
- `filled_iterate_normalized`: normalizing keeps it filled, however often
- `IsFilled.convolve_ne`: the filter does not refuse a filled kernel
- `constructed_usable`: what can be done with every kernel that was made
-/

namespace Stencil.Kernel

open Shader (Program Config)

/-! ## Ways of making a kernel -/

/-- The kernels that are made in one of the ways there are. -/
inductive Constructed : Kernel → Prop where
  | parsed {text : String} {k : Kernel} (h : parse text = .ok k) : Constructed k
  | ofWeights {weights : List Float32} {width height : Nat} {k : Kernel}
      (h : ofWeights weights width height = .ok k) : Constructed k
  | stock {name : String} {stock : Stock} {k : Kernel} (hname : Stock.ofName? name = some stock)
      (h : stock.kernel = .ok k) : Constructed k
  | identity : Constructed identity
  | boxBlur {size : Nat} {k : Kernel} (h : boxBlur size = .ok k) : Constructed k
  | gaussian {size : Nat} {sigma : Float32} {k : Kernel} (h : gaussian size sigma = .ok k) :
      Constructed k
  | sharpen (amount : Float32) : Constructed (sharpen amount)
  | edgeDetect : Constructed edgeDetect
  | emboss : Constructed emboss

/-- A rectangle with a cell, filled with weights. -/
structure IsFilled (k : Kernel) : Prop where
  columns : 1 ≤ k.width
  rows : 1 ≤ k.height
  filled : k.width * k.height = k.weights.length

/-- Weights are accepted when they fill a rectangle with a cell, and then they are kept. -/
theorem ofWeights_eq_ok_iff {weights : List Float32} {width height : Nat} {k : Kernel} :
    ofWeights weights width height = .ok k ↔
      1 ≤ width ∧ 1 ≤ height ∧ width * height = weights.length ∧ k = ⟨weights, width, height⟩ := by
  unfold ofWeights
  split
  · rename_i hempty
    exact iff_of_false (by simp) fun ⟨hwidth, hheight, _⟩ => by omega
  · rename_i hsides
    split
    · rename_i hcount
      exact iff_of_false (by simp) fun ⟨_, _, hfilled, _⟩ => hcount hfilled
    · rename_i hcount
      constructor
      · intro h
        exact ⟨by omega, by omega, Classical.not_not.1 hcount, (Except.ok.inj h).symm⟩
      · rintro ⟨-, -, -, rfl⟩
        rfl

/-- What a matrix is read as is filled. -/
private theorem isFilled_of_parse {text : String} {k : Kernel} (h : parse text = .ok k) :
    IsFilled k := by
  obtain ⟨hwidth, hconsistent⟩ := shape_of_parseChars h
  have hfilled := (isConsistent_iff k).1 hconsistent
  have hcount : 0 < k.weights.length := List.length_pos_iff.2 (weights_ne_nil_of_parseChars h)
  rw [← hfilled] at hcount
  exact ⟨hwidth, Nat.pos_of_mul_pos_left hcount, hfilled⟩

/-- An average is filled. -/
private theorem isFilled_of_boxBlur {size : Nat} {k : Kernel} (h : boxBlur size = .ok k) :
    IsFilled k := by
  obtain ⟨count, hcount, h⟩ := bind_eq_ok_iff.1 h
  obtain rfl := pure_eq_ok_iff.1 h
  obtain ⟨-, hside⟩ := le_oddSide size
  exact ⟨hside, hside, by rw [(squareCount_eq_ok_iff.1 hcount).1, List.length_replicate]⟩

/-- Normalizing a filled kernel leaves it filled. -/
theorem IsFilled.normalized {k : Kernel} (h : IsFilled k) : IsFilled k.normalized :=
  ⟨h.columns, h.rows, by rw [length_normalized]; exact h.filled⟩

/-- A bell curve is filled. -/
private theorem isFilled_of_gaussian {size : Nat} {sigma : Float32} {k : Kernel}
    (h : gaussian size sigma = .ok k) : IsFilled k := by
  obtain ⟨count, hcount, h⟩ := bind_eq_ok_iff.1 h
  obtain ⟨weights, hweights, h⟩ := bind_eq_ok_iff.1 h
  obtain rfl := pure_eq_ok_iff.1 h
  obtain ⟨-, hside⟩ := le_oddSide size
  refine IsFilled.normalized ⟨hside, hside, ?_⟩
  rw [(squareCount_eq_ok_iff.1 hcount).1, length_of_mapM_eq_ok hweights, List.length_range]

/-- Nine weights fill three rows of three. -/
private theorem isFilled_threeByThree {weights : List Float32} (h : weights.length = 9) :
    IsFilled (threeByThree weights) :=
  ⟨(by decide : 1 ≤ 3), (by decide : 1 ≤ 3), h.symm⟩

/-- Every way of making a kernel fills its rectangle. -/
theorem Constructed.filled {k : Kernel} (h : Constructed k) : IsFilled k := by
  cases h with
  | parsed h => exact isFilled_of_parse h
  | ofWeights h =>
    obtain ⟨hwidth, hheight, hfilled, rfl⟩ := ofWeights_eq_ok_iff.1 h
    exact ⟨hwidth, hheight, hfilled⟩
  | @stock _ stock _ _ h =>
    -- A stock kernel is one of those below, with fixed arguments
    cases stock with
    | identity => obtain rfl := Except.ok.inj h; exact isFilled_threeByThree rfl
    | box => exact isFilled_of_boxBlur h
    | gaussian => exact isFilled_of_gaussian h
    | sharpen => obtain rfl := Except.ok.inj h; exact isFilled_threeByThree rfl
    | edge => obtain rfl := Except.ok.inj h; exact isFilled_threeByThree rfl
    | emboss => obtain rfl := Except.ok.inj h; exact isFilled_threeByThree rfl
  | identity => exact isFilled_threeByThree rfl
  | boxBlur h => exact isFilled_of_boxBlur h
  | gaussian h => exact isFilled_of_gaussian h
  | sharpen amount => exact isFilled_threeByThree rfl
  | edgeDetect => exact isFilled_threeByThree rfl
  | emboss => exact isFilled_threeByThree rfl

/-! ## Normalizing any number of times -/

/-- Normalizing changes neither the sides nor the number of weights, however often it is done. -/
theorem sides_iterate_normalized (k : Kernel) (n : Nat) :
    (normalized^[n] k).width = k.width ∧ (normalized^[n] k).height = k.height ∧
      (normalized^[n] k).weights.length = k.weights.length := by
  induction n with
  | zero => exact ⟨rfl, rfl, rfl⟩
  | succ n ih =>
    rw [Function.iterate_succ_apply', normalized_width, normalized_height, length_normalized]
    exact ih

/-- A filled kernel stays filled, however often it is normalized. -/
theorem filled_iterate_normalized {k : Kernel} (h : IsFilled k) (n : Nat) :
    IsFilled (normalized^[n] k) := by
  induction n with
  | zero => exact h
  | succ n ih =>
    rw [Function.iterate_succ_apply']
    exact ih.normalized

/-! ## Uses of a filled kernel -/

/-- With a kernel that has taps there is only the image left to refuse. -/
theorem convolve_of_taps {k : Kernel} {taps : List Tap} (hconsistent : k.isConsistent)
    (hne : k.weights ≠ []) (htaps : k.taps = .ok taps) (image : Image) :
    k.convolve image =
      match Convolution.sampleCount image with
      | .error reason => .error (.fault reason)
      | .ok count =>
        if image.samples.size ≠ count ∨ count = 0 then
          .error (.refused (.sampleCount count image.samples.size))
        else Failure.ofFaulty ((Convolution.filterImage (taps.map Convolution.Step.ofTap) image
          count).map (·.result.toList)) := by
  have hfull : k.weights.isEmpty = false := List.isEmpty_eq_false_iff.2 hne
  unfold convolve
  rw [hconsistent, hfull, htaps]
  cases Convolution.sampleCount image with
  | error reason => rfl
  | ok count =>
    by_cases hfits : image.samples.size ≠ count ∨ count = 0
    · simp only [Failure.ofFaulty_ok, ok_bind, if_pos hfits]
      rfl
    · simp only [Failure.ofFaulty_ok, ok_bind, if_neg hfits]
      cases Convolution.filterImage (taps.map Convolution.Step.ofTap) image count with
      | error reason => rfl
      | ok progress => rfl

namespace IsFilled

variable {k : Kernel}

theorem isConsistent (h : IsFilled k) : k.isConsistent := (isConsistent_iff k).2 h.filled

theorem weights_ne_nil (h : IsFilled k) : k.weights ≠ [] := by
  rw [← List.length_pos_iff, ← h.filled]
  exact Nat.mul_pos h.columns h.rows

/-- A word holds the product of the sides. -/
theorem product_eq_ok (h : IsFilled k) (hcount : k.weights.length ≤ weightLimit) :
    Word.product k.width k.height = .ok k.weights.length := by
  rw [Word.product_eq_ok_iff]
  refine ⟨h.filled, Nat.lt_of_le_of_lt hcount ?_⟩
  decide

/-- Every weight has an offset. -/
theorem exists_offset (h : IsFilled k) (hcount : k.weights.length ≤ weightLimit) {index : Nat}
    (hindex : index < k.weights.length) : ∃ offset, k.offset index = .ok offset :=
  ⟨_, offset_eq_ok h.isConsistent h.weights_ne_nil hcount hindex⟩

/-- The filter refuses a filled kernel neither for its sides nor for want of weights, whatever the
    image. -/
theorem convolve_ne (h : IsFilled k) (hcount : k.weights.length ≤ weightLimit) (image : Image) :
    (∀ width height count,
      k.convolve image ≠ .error (.refused (.sizeMismatch width height count))) ∧
    k.convolve image ≠ .error (.refused .empty) := by
  have htaps := taps_eq_ok h.isConsistent h.weights_ne_nil hcount
  rw [convolve_of_taps h.isConsistent h.weights_ne_nil htaps]
  -- The image has too many samples to count, or another number of them, or is filtered
  split
  · exact ⟨fun _ _ _ => nofun, nofun⟩
  · split
    · exact ⟨fun _ _ _ => nofun, nofun⟩
    · unfold Failure.ofFaulty
      split
      · exact ⟨fun _ _ _ => nofun, nofun⟩
      · exact ⟨fun _ _ _ => nofun, nofun⟩

end IsFilled

/-! ## The kernels that are made -/

/-- A kernel that was made has a row and a column at least, and as many weights as cells, and keeps
    them when it is normalized, however often.  So it is consistent, each of its weights has an
    offset and a tap, there is a program for it, and the filter refuses it for none of its own
    fields.  Given weights are accepted exactly when they fill a rectangle with a cell. -/
theorem constructed_usable {k : Kernel} (h : Constructed k)
    (hcount : k.weights.length ≤ weightLimit) (n : Nat) :
    (normalized^[n] k).width = k.width ∧ (normalized^[n] k).height = k.height ∧
    1 ≤ k.width ∧ 1 ≤ k.height ∧
    (normalized^[n] k).width * (normalized^[n] k).height = (normalized^[n] k).weights.length ∧
    (normalized^[n] k).weights.length = k.weights.length ∧
    (normalized^[n] k).isConsistent ∧
    Word.product (normalized^[n] k).width (normalized^[n] k).height =
      .ok (normalized^[n] k).weights.length ∧
    (∀ index < (normalized^[n] k).weights.length,
      ∃ offset, (normalized^[n] k).offset index = .ok offset) ∧
    (∃ taps, (normalized^[n] k).taps = .ok taps ∧
      taps.length = (normalized^[n] k).weights.length) ∧
    (∀ config, ∃ program, Program.ofKernel (normalized^[n] k) config = .ok program) ∧
    (∀ image,
      (∀ width height count,
        (normalized^[n] k).convolve image ≠ .error (.refused (.sizeMismatch width height count))) ∧
      (normalized^[n] k).convolve image ≠ .error (.refused .empty)) ∧
    ∀ weights width height made, Kernel.ofWeights weights width height = .ok made ↔
      1 ≤ width ∧ 1 ≤ height ∧ width * height = weights.length ∧
        made = ⟨weights, width, height⟩ := by
  have hfilled := filled_iterate_normalized h.filled n
  obtain ⟨hwidth, hheight, hlength⟩ := sides_iterate_normalized k n
  have hlimit : (normalized^[n] k).weights.length ≤ weightLimit := by rw [hlength]; exact hcount
  have htaps := taps_eq_ok hfilled.isConsistent hfilled.weights_ne_nil hlimit
  exact ⟨hwidth, hheight, h.filled.columns, h.filled.rows, hfilled.filled, hlength,
    hfilled.isConsistent, hfilled.product_eq_ok hlimit,
    fun index hindex => hfilled.exists_offset hlimit hindex,
    ⟨_, htaps, length_tapList _⟩,
    fun config => ⟨_, Program.ofKernel_of_taps config hfilled.isConsistent hfilled.weights_ne_nil htaps⟩,
    hfilled.convolve_ne hlimit, fun _ _ _ _ => ofWeights_eq_ok_iff⟩

/-- A matrix of two rows still has four taps after it was normalized twice. -/
theorem constructed_usable_two_rows :
    ∃ k, parse "2,-1;-1,0;" = .ok k ∧ k.weights.length ≤ weightLimit ∧
      ∃ taps, (normalized^[2] k).taps = .ok taps ∧ taps.length = 4 := by
  have hread : parse "2,-1;-1,0;" = .ok ⟨[2, -1, -1, 0], 2, 2⟩ := by decide +kernel
  have hlimit : [2, -1, -1, (0 : Float32)].length ≤ weightLimit := by decide
  obtain ⟨-, -, -, -, -, hlength, -, -, -, ⟨taps, htaps, hcount⟩, -⟩ :=
    constructed_usable (.parsed hread) hlimit 2
  exact ⟨_, hread, hlimit, taps, htaps, hcount.trans hlength⟩

end Stencil.Kernel
