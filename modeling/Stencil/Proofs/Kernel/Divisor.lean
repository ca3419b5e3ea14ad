import Stencil.Kernel.Normalization
import Stencil.Kernel.Stock
import Stencil.Proofs.Precision.Order
import Stencil.Proofs.Precision.Sum

/-!
# The divisor of a normalization

Weights are summed in double precision.  No list in memory is so long that the sum leaves the range
of double precision, and for lists of moderate length it lies close to the exact sum.  Which sum is
the divisor is decided by the computed sum of all weights: below a fixed threshold it counts as zero,
and the sum of the weights above zero takes its place.

## Key results

- `wideSum_close` / `wideSum_positiveWeights_close`: how far computed sums lie from the exact ones
- `abs_lt_of_cancelled` / `ne_zero_of_not_cancelled`: what is known of a sum that counts as zero, and
  of one that does not
- `divisor?_of_value`: the divisor is the sum that was chosen, unless that is zero
- `exists_value_divisor?`: a divisor of finite weights is a number
-/

namespace Stencil.Kernel

open Precision

variable {weights : List Float32} {v : ℚ}

/-! ## Computed sums -/

/-- The part of the magnitudes that a sum of at most `2 ^ 24` weights costs. -/
def sumError : ℚ := 1 / 2 ^ 28

/-- The sum of weights has a value, which lies close to the exact sum when there are not too many of
    them. -/
theorem wideSum_close (hfinite : ∀ w ∈ weights, w.isFinite) (hcount : weights.length ≤ weightLimit) :
    ∃ f, wideValue? (wideSum weights) = some f ∧
      (weights.length ≤ 2 ^ 24 → |f - exactSum weights| ≤ sumError * exactMass weights) := by
  have hstart : wideValue? negativeZeroWide = some 0 := rfl
  have hmass := exactMass_nonneg weights
  have hlimit : (1 + wideError) ^ weights.length * (|0| + exactMass weights) ≤ wideLimit := by
    have hlength : (weights.length : ℚ) ≤ 2 ^ 61 := by exact_mod_cast hcount
    rw [abs_zero, zero_add]
    calc (1 + wideError) ^ weights.length * exactMass weights
        ≤ 2 ^ 512 * (2 ^ 61 * 2 ^ 128) := by
          gcongr
          · exact one_add_wideError_pow_le hcount
          · exact (exactMass_le weights).trans (by gcongr)
      _ = 2 ^ 701 := by rw [← pow_add, ← pow_add]
      _ ≤ wideLimit := pow_le_wideLimit (by norm_num)
  obtain ⟨f, hf, hclose⟩ := foldl_add_close hstart hfinite hlimit
  refine ⟨f, hf, fun hfew => ?_⟩
  rw [abs_zero, zero_add, zero_add] at hclose
  refine hclose.trans (mul_le_mul_of_nonneg_right ?_ hmass)
  -- A moderate number of additions costs twice their number
  have hfewQ : (weights.length : ℚ) ≤ 2 ^ 24 := by exact_mod_cast hfew
  have hcost : 2 * (weights.length : ℚ) * wideError ≤ sumError := by
    unfold wideError sumError
    linarith
  have hgrown := one_add_pow_le wideError_pos.le (hcost.trans (by norm_num [sumError]))
  linarith

/-! ## Positive weights -/

/-- The exact sum of the weights above zero. -/
def positiveMass (weights : List Float32) : ℚ := (weights.map fun w => max (valueOf w) 0).sum

@[simp] theorem positiveMass_cons (w : Float32) (weights : List Float32) :
    positiveMass (w :: weights) = max (valueOf w) 0 + positiveMass weights := by simp [positiveMass]

private theorem isFinite_positiveWeights (hfinite : ∀ w ∈ weights, w.isFinite) :
    ∀ w ∈ positiveWeights weights, w.isFinite :=
  fun w hw => hfinite w (List.mem_of_mem_filter hw)

private theorem length_positiveWeights_le (weights : List Float32) :
    (positiveWeights weights).length ≤ weights.length := List.length_filter_le _ _

/-- The weights above zero have that sum, and the same magnitudes. -/
theorem exactSum_positiveWeights (hfinite : ∀ w ∈ weights, w.isFinite) :
    exactSum (positiveWeights weights) = positiveMass weights ∧
      exactMass (positiveWeights weights) = positiveMass weights := by
  induction weights with
  | nil => exact ⟨rfl, rfl⟩
  | cons w rest ih =>
    obtain ⟨hsum, hmass⟩ := ih fun u hu => hfinite u (List.mem_cons_of_mem _ hu)
    have hzero : value? (ofInt 0) = some 0 := rfl
    have hiff := lt_iff_value hzero (value?_of_isFinite (hfinite w List.mem_cons_self))
    rw [positiveMass_cons]
    unfold positiveWeights at *
    by_cases hpos : ofInt 0 < w
    · have hvalue := hiff.1 hpos
      rw [List.filter_cons_of_pos (by simpa using hpos), exactSum_cons, exactMass_cons, hsum, hmass,
        max_eq_left hvalue.le, abs_of_pos hvalue]
      exact ⟨rfl, rfl⟩
    · have hvalue := not_lt.1 (mt hiff.2 hpos)
      rw [List.filter_cons_of_neg (by simpa using hpos), hsum, hmass, max_eq_right hvalue, zero_add]
      exact ⟨rfl, rfl⟩

/-- The magnitudes are twice the positive ones without the sum. -/
theorem exactMass_eq (weights : List Float32) :
    exactMass weights = 2 * positiveMass weights - exactSum weights := by
  induction weights with
  | nil => simp [exactMass, positiveMass, exactSum]
  | cons w rest ih =>
    rw [exactMass_cons, exactSum_cons, positiveMass_cons, ih]
    rcases le_total (valueOf w) 0 with hle | hle
    · rw [abs_of_nonpos hle, max_eq_right hle]
      ring
    · rw [abs_of_nonneg hle, max_eq_left hle]
      ring

/-- The sum of the weights above zero lies close to the exact one. -/
theorem wideSum_positiveWeights_close (hfinite : ∀ w ∈ weights, w.isFinite)
    (hcount : weights.length ≤ weightLimit) :
    ∃ f, wideValue? (wideSum (positiveWeights weights)) = some f ∧
      (weights.length ≤ 2 ^ 24 → |f - positiveMass weights| ≤ sumError * positiveMass weights) := by
  have hlength := length_positiveWeights_le weights
  obtain ⟨f, hf, hclose⟩ :=
    wideSum_close (isFinite_positiveWeights hfinite) (hlength.trans hcount)
  obtain ⟨hsum, hmass⟩ := exactSum_positiveWeights hfinite
  rw [hsum, hmass] at hclose
  exact ⟨f, hf, fun hfew => hclose (hlength.trans hfew)⟩

/-! ## Cancelled sums -/

/-- The sum of the weights counts as zero. -/
def Cancelled (weights : List Float32) : Prop := (wideSum weights).abs < zeroSumEpsilon

instance (weights : List Float32) : Decidable (Cancelled weights) :=
  inferInstanceAs (Decidable (_ < _))

/-- The threshold is a number close to `10 ^ (-8)`. -/
private theorem exists_value_zeroSumEpsilon :
    ∃ limit, wideValue? zeroSumEpsilon = some limit ∧ 0 < limit ∧ limit ≤ 11 / 10 ^ 9 := by
  have hu : zeroSumEpsilon.toModel.unpack = .finite .positive 6044629098073146 (-79) (by decide) := rfl
  refine ⟨(6044629098073146 : ℕ) * 2 ^ (-79 : ℤ), ?_, ?_, ?_⟩
  · rw [wideValue?, hu]
    rfl
  · norm_num
  · norm_num

/-- A sum that counts as zero is small. -/
theorem abs_lt_of_cancelled (hv : wideValue? (wideSum weights) = some v) (h : Cancelled weights) :
    |v| < 11 / 10 ^ 9 := by
  obtain ⟨limit, hlimit, -, hle⟩ := exists_value_zeroSumEpsilon
  exact ((wide_lt_iff_value (wideValue?_abs hv) hlimit).1 h).trans_le hle

/-- A sum that does not count as zero is not zero. -/
theorem ne_zero_of_not_cancelled (hv : wideValue? (wideSum weights) = some v)
    (h : ¬ Cancelled weights) : v ≠ 0 := by
  obtain ⟨limit, hlimit, hpos, -⟩ := exists_value_zeroSumEpsilon
  rintro rfl
  refine h ((wide_lt_iff_value (wideValue?_abs hv) hlimit).2 ?_)
  rwa [abs_zero]

/-! ## Divisors -/

theorem scale_of_not_cancelled (h : ¬ Cancelled weights) : scale weights = wideSum weights :=
  if_neg h

theorem scale_of_cancelled (h : Cancelled weights) :
    scale weights = wideSum (positiveWeights weights) := if_pos h

/-- The divisor is the sum that was chosen, unless that is zero. -/
theorem divisor?_of_value (hv : wideValue? (scale weights) = some v) :
    divisor? weights = if v = 0 then none else some (scale weights) := by
  have hzero : wideValue? zeroWide = some 0 := rfl
  unfold divisor?
  by_cases h : v = 0
  · rw [if_pos h]
    exact if_pos ((wide_beq_iff_value hv hzero).2 h)
  · rw [if_neg h]
    exact if_neg (mt (wide_beq_iff_value hv hzero).1 h)

/-- A divisor of finite weights is a number other than zero, as no list in memory has an infinite
    sum. -/
theorem exists_value_divisor? {d : Float} (hfinite : ∀ w ∈ weights, w.isFinite)
    (hcount : weights.length ≤ weightLimit) (hd : divisor? weights = some d) :
    ∃ v, wideValue? d = some v ∧ v ≠ 0 := by
  obtain ⟨v, hv⟩ : ∃ v, wideValue? (scale weights) = some v := by
    by_cases h : Cancelled weights
    · obtain ⟨v, hv, -⟩ := wideSum_positiveWeights_close hfinite hcount
      exact ⟨v, by rwa [scale_of_cancelled h]⟩
    · obtain ⟨v, hv, -⟩ := wideSum_close hfinite hcount
      exact ⟨v, by rwa [scale_of_not_cancelled h]⟩
  rw [divisor?_of_value hv] at hd
  split at hd
  · exact absurd hd (by simp)
  · rename_i hne
    obtain rfl := Option.some.inj hd
    exact ⟨v, hv, hne⟩

end Stencil.Kernel
