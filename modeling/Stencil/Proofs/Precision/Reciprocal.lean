import Stencil.Proofs.Precision.Closeness
import Stencil.Proofs.Precision.Whole
import Stencil.Shader.Program

/-!
# Steps as reciprocals

The step over one of many pixels is a whole number taken to single precision, and one divided by
it.  Both roundings move a number by the part `2 ^ (-24)` of it at most, so that the step is within
the part `2 ^ (-22)` of the exact reciprocal.

## Key results

- `value?_ofInt`: a whole number of at most 24 bits has single precision
- `value?_ofInt_close` / `value?_div_close`: a whole number and a quotient in single precision
- `toInt_of_value?`: a number that is whole is taken back as its value
- `TexelSteps.step_close`: the step over one of `count` pixels
-/

namespace Stencil

namespace Precision

open Float.Model (Format UnpackedFloat)
open Float.Model.UnpackedFloat

/-! ## Relative errors -/

/-- In the normal range of single precision a number is stored up to the part `2 ^ (-24)` of it. -/
private theorem Stored.value_close {x : ℚ} {sign : Sign} {n : ℕ} {t : ℤ} {u : UnpackedFloat}
    (h : Stored .binary32 sign n t u) (hplaced : Placed .binary32 x t)
    (hnearest : IsNearest (x / 2 ^ t) n) (hlow : 2 ^ (-126 : ℤ) ≤ x) (hhigh : x ≤ 2 ^ (126 : ℤ)) :
    decodedValue? (unpack .binary32 (pack .binary32 u)) =
        some ((sign.apply 1 : ℤ) * ((n : ℚ) * 2 ^ t)) ∧
      |(n : ℚ) * 2 ^ t - x| ≤ x / 2 ^ 24 := by
  have hclose : |(n : ℚ) * 2 ^ t - x| ≤ x / 2 ^ 24 := hplaced.nearest_close hnearest hlow
  have hpos : 0 < x := lt_of_lt_of_le (by positivity) hlow
  have hbelow : (n : ℚ) * 2 ^ t < overflow .binary32 := by
    have hunits : (n : ℚ) * 2 ^ t ≤ 2 * x := by
      have := (abs_le.1 hclose).2
      linarith
    calc (n : ℚ) * 2 ^ t ≤ 2 * 2 ^ (126 : ℤ) := hunits.trans (by linarith)
      _ < overflow .binary32 := by norm_num [overflow, Format.binary32]
  exact ⟨h.value_of_lt (by decide) hbelow, hclose⟩

/-! ## Whole numbers -/

/-- A whole number is rounded to a whole number, and to itself in units up to one. -/
private theorem IsNearest.exists_whole {a n : ℕ} {t : ℤ} (h : IsNearest ((a : ℚ) / 2 ^ t) n) :
    ∃ whole : ℕ, (n : ℚ) * 2 ^ t = whole ∧ (t ≤ 0 → whole = a) := by
  cases t with
  | ofNat k =>
    refine ⟨n * 2 ^ k, by push_cast; rfl, fun hle => ?_⟩
    obtain rfl : k = 0 := by
      simp only [Int.ofNat_eq_natCast] at hle
      omega
    have hsame : (a : ℚ) / 2 ^ Int.ofNat 0 = a := by simp
    rw [hsame] at h
    rw [h.eq_of_natCast, Nat.pow_zero, Nat.mul_one]
  | negSucc k =>
    -- In units below one a whole number is a whole number of units
    have hscale : (a : ℚ) / 2 ^ Int.negSucc k = (a * 2 ^ (k + 1) : ℕ) := by
      rw [zpow_negSucc, div_inv_eq_mul]
      push_cast
      rfl
    rw [hscale] at h
    refine ⟨a, ?_, fun _ => rfl⟩
    rw [h.eq_of_natCast, ← hscale, div_mul_cancel₀ _ (by positivity)]

/-- A whole number of at most 24 bits is taken to single precision without rounding. -/
theorem value?_ofInt {n : ℤ} (hlow : -wholeLimit ≤ n) (hhigh : n ≤ wholeLimit) :
    value? (ofInt n) = some (n : ℚ) := by
  by_cases hn : n = 0
  · rw [hn, value?, unpack_ofInt_zero]
    simp [decodedValue?]
  · obtain ⟨m, e, hm, hunpack, hscale⟩ := unpack_ofInt hn hlow hhigh
    have hmagnitude : (m : ℚ) * 2 ^ e = n.natAbs := by
      have hscaled : (m : ℚ) * 2 ^ e.toNat = n.natAbs * 2 ^ (-e).toNat := by exact_mod_cast hscale
      rw [← zpow_mul_pow_toNat, ← mul_assoc] at hscaled
      exact mul_right_cancel₀ (by positivity) hscaled
    have hsigned : (((signOf n).apply m : ℤ) : ℚ) * 2 ^ e = ((signOf n).apply n.natAbs : ℤ) := by
      cases signOf n with
      | positive => simpa [Sign.apply] using hmagnitude
      | negative => simpa [Sign.apply] using congrArg Neg.neg hmagnitude
    rw [value?, hunpack, decodedValue?, hsigned, signOf_apply]

/-- A whole number is taken to single precision as a whole number, up to the part `2 ^ (-24)` of it,
    and as itself below `2 ^ 24`. -/
theorem value?_ofInt_close {n : ℤ} (hhigh : n.natAbs ≤ 2 ^ 126) :
    ∃ m : ℤ, value? (ofInt n) = some (m : ℚ) ∧ |(m : ℚ) - n| ≤ |(n : ℚ)| / 2 ^ 24 ∧
      (n.natAbs < 2 ^ 24 → m = n) := by
  rcases eq_or_ne n 0 with rfl | hne
  · refine ⟨0, ?_, by simp, fun _ => rfl⟩
    rw [value?, unpack_ofInt_zero]
    simp [decodedValue?]
  have hpos : 0 < n.natAbs := Int.natAbs_pos.2 hne
  have hround : (ofInt n).toModel.unpack =
      unpack .binary32 (pack .binary32 (UnpackedFloat.round .binary32 (signOf n) n.natAbs 0)) := by
    rw [← ofInt_eq_round hne]
    rfl
  obtain ⟨units, t, hplaced, hnearest, hstored⟩ := round_nearest .binary32 (signOf n) hpos 0
  rw [zpow_zero, mul_one] at hplaced hnearest
  obtain ⟨whole, hwhole, hexact⟩ := hnearest.exists_whole
  have hone : (1 : ℚ) ≤ n.natAbs := by exact_mod_cast hpos
  have hlow : (2 : ℚ) ^ (-126 : ℤ) ≤ n.natAbs := le_trans (by norm_num) hone
  have hhighQ : (n.natAbs : ℚ) ≤ 2 ^ (126 : ℤ) := by exact_mod_cast hhigh
  obtain ⟨hvalue, hclose⟩ := hstored.value_close hplaced hnearest hlow hhighQ
  rw [hwhole] at hvalue hclose
  have hn : n = (signOf n).apply 1 * n.natAbs := by
    conv_lhs => rw [← signOf_apply n]
    cases signOf n <;> simp [Sign.apply]
  have hnQ : (n : ℚ) = ((signOf n).apply 1 : ℤ) * (n.natAbs : ℚ) := by
    rw [← Int.cast_natCast n.natAbs, ← Int.cast_mul, ← hn]
  refine ⟨(signOf n).apply 1 * whole, ?_, ?_, fun hsmall => ?_⟩
  · rw [value?, hround, hvalue]
    push_cast
    rfl
  · have hmagnitude : |(n : ℚ)| = n.natAbs := by
      rw [hnQ, abs_apply_one_mul, Nat.abs_cast]
    rw [hmagnitude, hnQ, Int.cast_mul, Int.cast_natCast, abs_apply_sub]
    exact hclose
  · -- A number of less than 25 bits is stored in units up to one
    have ht : t ≤ 0 := by
      rcases hplaced.leading with hleading | rfl
      · have hsmallQ : (n.natAbs : ℚ) < 2 ^ (24 : ℤ) := by exact_mod_cast hsmall
        have hexponent : t + 23 < 24 :=
          (zpow_lt_zpow_iff_right₀ (by norm_num : (1 : ℚ) < 2)).1 (hleading.trans_lt hsmallQ)
        omega
      · decide
    rw [hexact ht]
    exact hn.symm

/-- A number whose value is a signed word is taken back as that value. -/
theorem toInt_of_value? {x : Float32} {m : ℤ} (h : value? x = some (m : ℚ))
    (hlow : -Word.signedLimit ≤ m) (hhigh : m < Word.signedLimit) : toInt x = m := by
  have hinside : ∀ z : ℤ, z = m →
      max (-Word.signedLimit) (min (Word.signedLimit - 1) z) = m := by
    rintro z rfl
    omega
  refine hinside _ ?_
  rcases decodedValue?_eq_some h with ⟨sign, hu, hzero⟩ | ⟨sign, units, e, hm, hu, hvalue⟩
  · rw [hu, Int.cast_eq_zero.1 hzero]
    rfl
  · have hmagnitude : (m.natAbs : ℚ) = units * 2 ^ e := by
      rw [Nat.cast_natAbs, Int.cast_abs, hvalue, abs_apply]
    have hscale : units * 2 ^ e.toNat = m.natAbs * 2 ^ (-e).toNat := by
      refine Nat.cast_injective (R := ℚ) ?_
      rw [Nat.cast_mul, Nat.cast_mul, Nat.cast_pow, Nat.cast_pow, Nat.cast_ofNat, hmagnitude,
        mul_assoc, zpow_mul_pow_toNat]
    have hsign : sign.apply m.natAbs = m := by
      have hnonneg : (0 : ℚ) ≤ units * 2 ^ e := by positivity
      cases sign with
      | positive =>
        have hm : (0 : ℚ) ≤ m := hvalue ▸ hnonneg
        have : 0 ≤ m := by exact_mod_cast hm
        simp only [Sign.apply]
        omega
      | negative =>
        have hm : (m : ℚ) ≤ 0 := by
          rw [hvalue]
          simp only [Sign.apply, Int.cast_neg, Int.cast_natCast, neg_mul]
          linarith
        have : m ≤ 0 := by exact_mod_cast hm
        simp only [Sign.apply]
        omega
    rw [hu]
    simp only [UnpackedFloat.toInt]
    rw [roundToInt_eq, hscale, Nat.mul_div_cancel _ (Nat.two_pow_pos _), hsign]

/-! ## Quotients -/

/-- One has single precision. -/
theorem value?_ofInt_one : value? (ofInt 1) = some 1 := by
  have hunpack : (ofInt 1).toModel.unpack = .finite .positive (2 ^ 23) (-23) (by decide) := rfl
  rw [value?, hunpack]
  norm_num [decodedValue?, Sign.apply]

/-- A quotient in the normal range of single precision is stored up to the part `2 ^ (-24)` of
    it. -/
theorem value?_div_close {x y : Float32} {v w : ℚ} (hx : value? x = some v)
    (hy : value? y = some w) (hv : 0 < v) (hw : 0 < w) (hlow : 2 ^ (-126 : ℤ) ≤ v / w)
    (hhigh : v / w ≤ 2 ^ (126 : ℤ)) :
    ∃ q, value? (x / y) = some q ∧ |q - v / w| ≤ v / w / 2 ^ 24 := by
  have hdiv : value? (x / y) = decodedValue? (unpack .binary32 (pack .binary32
      (div .binary32 x.toModel.unpack y.toModel.unpack))) := rfl
  obtain ⟨sign, a, n, t, hquotient, ha, hplaced, hnearest, hstored⟩ :=
    storedFor_div .binary32 hx hy hw.ne'
  have hmagnitude : a = v / w := by
    rw [← abs_of_pos (div_pos hv hw), hquotient, abs_apply_one_mul, abs_of_nonneg ha]
  rw [← hmagnitude] at hlow hhigh
  obtain ⟨hvalue, hclose⟩ := hstored.value_close hplaced hnearest hlow hhigh
  refine ⟨_, hdiv.trans hvalue, ?_⟩
  calc |((sign.apply 1 : ℤ) : ℚ) * (n * 2 ^ t) - v / w| = |n * 2 ^ t - a| := by
        rw [hquotient, abs_apply_sub]
    _ ≤ a / 2 ^ 24 := hclose
    _ = v / w / 2 ^ 24 := by rw [hmagnitude]

end Precision

/-! ## The step over a pixel -/

namespace TexelSteps

open Precision (value? value?_ofInt_one value?_ofInt_close value?_div_close)

/-- The step over one of `count` pixels, taken `count` times, is one up to the part `2 ^ (-22)`. -/
theorem step_close {count : ℕ} (hpos : 1 ≤ count) (hhigh : count < 2 ^ 32) :
    ∃ q, value? (step count) = some q ∧ 0 < q ∧ |q * count - 1| ≤ 1 / 2 ^ 22 := by
  have hcount : (1 : ℚ) ≤ count := by exact_mod_cast hpos
  have hcount_lt : (count : ℚ) < 2 ^ 32 := by exact_mod_cast hhigh
  obtain ⟨whole, hw, hwclose, -⟩ :=
    value?_ofInt_close (n := count) (hhigh.le.trans (by norm_num))
  rw [Int.cast_natCast, Nat.abs_cast] at hwclose
  generalize (whole : ℚ) = w at *
  obtain ⟨hwlow, hwhigh⟩ := abs_le.1 hwclose
  have hwpos : 0 < w := by linarith
  obtain ⟨q, hq, hqclose⟩ := value?_div_close value?_ofInt_one hw one_pos hwpos
    ((by norm_num : (2 : ℚ) ^ (-126 : ℤ) ≤ 1 / 2 ^ 33).trans
      (one_div_le_one_div_of_le hwpos (by linarith)))
    ((one_div_le_one_div_of_le (by norm_num : (0 : ℚ) < 1 / 2) (by linarith)).trans (by norm_num))
  have hstep : step count = Precision.ofInt 1 / Precision.ofNat count := by
    rw [step, Nat.max_eq_left hpos]
  -- The quotient times the rounded number is as close to one as the quotient is to exact
  have hproduct : |q * w - 1| ≤ 1 / 2 ^ 24 := by
    have hscale : q * w - 1 = (q - 1 / w) * w := by field_simp
    rw [hscale, abs_mul, abs_of_pos hwpos]
    calc |q - 1 / w| * w ≤ 1 / w / 2 ^ 24 * w := by gcongr
      _ = 1 / 2 ^ 24 := by field_simp
  obtain ⟨hproductLow, hproductHigh⟩ := abs_le.1 hproduct
  have hqpos : 0 < q := by
    by_contra hneg
    nlinarith
  refine ⟨q, by rw [hstep]; exact hq, hqpos, ?_⟩
  -- and the number itself differs by as small a part from the rounded one
  have hlow : q * count * (1 - 1 / 2 ^ 24) ≤ q * w := by nlinarith
  have hhigh : q * w ≤ q * count * (1 + 1 / 2 ^ 24) := by nlinarith
  rw [abs_le]
  constructor <;> linarith

end TexelSteps

end Stencil
