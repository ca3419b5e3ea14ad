import Stencil.Proofs.Precision.Closeness

/-!
# Quotients in single precision

A weight is divided in double precision, and the quotient is stored in single precision.  The first
step costs next to nothing beside the second, which takes half a unit of single precision.  A weight
that is divided by a number close to one is itself a number of single precision close to the
quotient, and what is stored is no further away.  So it moves by no more than twice the distance of
the quotient, also where the units are large beside the weight.

## Key results

- `narrow_nearest`: what is stored in single precision is the nearest number
- `wideValue?_div`: what a division in double precision costs
- `narrow_div_close`: what both steps cost
- `narrow_div_stays`: a weight that is divided by a number close to one stays where it is
-/

namespace Stencil.Precision

open Float.Model (Format UnpackedFloat)
open Float.Model.UnpackedFloat

/-! ## The range of single precision -/

/-- Every value lies below the first power of two beyond single precision. -/
theorem abs_valueOf_lt (x : Float32) : |valueOf x| < 2 ^ 128 := by
  unfold valueOf
  cases hx : value? x with
  | none => simp
  | some v =>
    rw [Option.getD_some]
    rcases decodedValue?_eq_some hx with ⟨sign, hu, rfl⟩ | ⟨sign, m, e, hm, hu, rfl⟩
    · simp
    · have hoverflow : overflow .binary32 = 2 ^ 128 := rfl
      rw [abs_apply, ← hoverflow]
      exact lt_overflow_of_unpack hu (by decide)

/-- A value other than zero is no smaller than the smallest unit. -/
theorem le_abs_of_value? {x : Float32} {v : ℚ} (hx : value? x = some v) (hv : v ≠ 0) :
    2 ^ (-149 : ℤ) ≤ |v| := by
  rcases decodedValue?_eq_some hx with ⟨sign, hu, rfl⟩ | ⟨sign, m, e, hm, hu, rfl⟩
  · exact absurd rfl hv
  · have hone : (1 : ℚ) ≤ m := by exact_mod_cast hm
    have hlow : (-149 : ℤ) ≤ e := (canonical_unpack hu).low
    rw [abs_apply]
    calc (2 : ℚ) ^ (-149 : ℤ) ≤ 2 ^ e := zpow_le_zpow_right₀ (by norm_num) hlow
      _ ≤ m * 2 ^ e := le_mul_of_one_le_left (by positivity) hone

/-! ## Storing in single precision -/

/-- Half a unit of single precision, as a part of a number. -/
def narrowError : ℚ := 1 / 2 ^ 24

/-- The smallest number of single precision with a leading bit. -/
def smallestNormal : ℚ := 2 ^ (-126 : ℤ)

theorem smallestNormal_pos : 0 < smallestNormal := by norm_num [smallestNormal]

/-- A number of single precision is the sign of any other one and a number that single precision has as
    well. -/
private theorem exists_canonical_signed {x : Float32} {z : ℚ} (hz : value? x = some z) (sign : Sign) :
    ∃ (s : Sign) (m : ℕ) (e : ℤ), Canonical .binary32 m e ∧
      z = (sign.apply 1 : ℤ) * (s.apply m * 2 ^ e) := by
  rcases decodedValue?_eq_some hz with ⟨s, hu, rfl⟩ | ⟨s, m, e, hm, hu, rfl⟩
  · exact ⟨.positive, 0, Format.binary32.minExponent, ⟨by decide, le_refl _, Or.inr rfl⟩,
      by simp [Sign.apply]⟩
  · refine ⟨sign * s, m, e, canonical_unpack hu, ?_⟩
    rw [apply_eq_mul, apply_eq_mul (sign * s), mul_apply_one, Int.cast_mul, mul_assoc,
      apply_one_mul_self]

/-- What is stored in single precision is off by half a unit at most, and no number of single
    precision is nearer. -/
theorem narrow_nearest {y : Float} {v : ℚ} (hy : wideValue? y = some v)
    (hfinite : (narrow y).isFinite) :
    |valueOf (narrow y) - v| ≤ narrowError * (|v| + smallestNormal) ∧
      ∀ x z, value? x = some z → |valueOf (narrow y) - v| ≤ |z - v| := by
  have hnarrow : (narrow y).toModel.unpack =
      unpack .binary32 (pack .binary32 (reround .binary32 y.toModel.unpack)) := rfl
  obtain ⟨sign, a, n, t, rfl, ha, hplaced, hnearest, hstored⟩ := storedFor_reround .binary32 hy
  have hbelow : (n : ℚ) * 2 ^ t < overflow .binary32 := by
    rw [← hstored.isFinite_unpack_pack_iff (by decide)]
    have hunpacked : (narrow y).isFinite = (narrow y).toModel.unpack.isFinite := rfl
    rwa [hunpacked, hnarrow] at hfinite
  have hvalue : valueOf (narrow y) = (sign.apply 1 : ℤ) * ((n : ℚ) * 2 ^ t) := by
    refine valueOf_eq ?_
    rw [value?, hnarrow]
    exact hstored.value_of_lt (by decide) hbelow
  rw [hvalue, abs_apply_sub, abs_apply_one_mul, abs_of_nonneg ha]
  constructor
  · have herror := hplaced.nearest_error hnearest ha
    rw [narrowError, one_div_mul_eq_div]
    exact herror
  · intro x z hz
    -- Magnitudes are compared, so the sign of the result is taken off the other number as well
    obtain ⟨s, m', e', hcanonical, hsigned⟩ := exists_canonical_signed hz sign
    rw [hsigned, abs_apply_sub]
    exact hplaced.dist_le hnearest s hcanonical

/-! ## Quotients -/

/-- A division is off by the part `2 ^ (-53)` of the quotient, or of the smallest number with a
    leading bit. -/
theorem wideValue?_div {x d : Float} {a v : ℚ} (hx : wideValue? x = some a)
    (hd : wideValue? d = some v) (hv : v ≠ 0) (hlimit : |a / v| ≤ wideLimit) :
    ∃ q, wideValue? (x / d) = some q ∧
      |q - a / v| ≤ wideError * (|a / v| + 2 ^ (-1022 : ℤ)) ∧
      (a = 0 ∨ 2 ^ (-1022 : ℤ) ≤ |a / v| → |q - a / v| ≤ wideError * |a / v|) := by
  have hdiv : wideValue? (x / d) = decodedValue? (unpack .binary64 (pack .binary64
      (div .binary64 x.toModel.unpack d.toModel.unpack))) := rfl
  obtain ⟨sign, q, n, t, hquotient, hq, hplaced, hnearest, hstored⟩ :=
    storedFor_div .binary64 hx hd hv
  have hmagnitude : |a / v| = q := by rw [hquotient, abs_apply_one_mul, abs_of_nonneg hq]
  rw [hmagnitude] at hlimit ⊢
  have herror : |(n : ℚ) * 2 ^ t - q| ≤ wideError * (q + 2 ^ (-1022 : ℤ)) := by
    rw [wideError, one_div_mul_eq_div]
    exact hplaced.nearest_error hnearest hq
  have hsmall : wideError * (q + 2 ^ (-1022 : ℤ)) ≤ wideLimit := by
    have hnormal : (2 : ℚ) ^ (-1022 : ℤ) ≤ 1 := zpow_le_one_of_nonpos₀ (by norm_num) (by norm_num)
    have hone : 1 ≤ wideLimit := pow_le_wideLimit (Nat.zero_le _)
    calc wideError * (q + 2 ^ (-1022 : ℤ)) ≤ 1 / 2 * (wideLimit + wideLimit) :=
          mul_le_mul (by norm_num [wideError]) (by linarith) (by positivity) (by norm_num)
      _ = wideLimit := by ring
  rw [hdiv, hstored.wide_value hlimit (herror.trans hsmall)]
  refine ⟨_, rfl, ?_, fun hnormal => ?_⟩
  · rw [hquotient, abs_apply_sub]
    exact herror
  · rw [hquotient, abs_apply_sub, wideError, one_div_mul_eq_div]
    rcases hnormal with rfl | hnormal
    · -- Zero is stored as it is
      obtain rfl : 0 = q := by rw [← hmagnitude, zero_div, abs_zero]
      rw [zero_div, ← Nat.cast_zero] at hnearest
      simp [hnearest.eq_of_natCast]
    · exact hplaced.nearest_close hnearest hnormal

/-- The part of a quotient that both steps cost. -/
def quotientError : ℚ := 6 / 10 ^ 8

/-- A quotient in single precision is off by a part of it, or of the smallest number with a leading
    bit. -/
theorem narrow_div_close {w : Float32} {d : Float} {x v : ℚ} (hw : value? w = some x)
    (hd : wideValue? d = some v) (hv : v ≠ 0) (hfinite : (narrow (widen w / d)).isFinite) :
    |valueOf (narrow (widen w / d)) - x / v| ≤ quotientError * (|x / v| + smallestNormal) := by
  have hlimit : |x / v| ≤ wideLimit := by
    have hx := (isFinite_narrow_div_iff hw hd hv).1 hfinite
    rw [abs_div, div_le_iff₀ (abs_pos.2 hv), mul_comm]
    refine hx.le.trans (mul_le_mul_of_nonneg_left ?_ (abs_nonneg v))
    calc quotientLimit ≤ 2 ^ 128 := by norm_num [quotientLimit]
      _ ≤ wideLimit := pow_le_wideLimit (by norm_num)
  obtain ⟨q, hq, hclose, -⟩ := wideValue?_div (wideValue?_widen hw) hd hv hlimit
  obtain ⟨hnarrow, -⟩ := narrow_nearest hq hfinite
  have hsmall : (2 : ℚ) ^ (-1022 : ℤ) ≤ smallestNormal :=
    zpow_le_zpow_right₀ (by norm_num) (by norm_num)
  generalize valueOf (narrow (widen w / d)) = y at *
  generalize (2 : ℚ) ^ (-1022 : ℤ) = least at *
  have hnormal := smallestNormal_pos
  generalize smallestNormal = normal at *
  have hnonneg := abs_nonneg (x / v)
  have hquotient := abs_sub_abs_le_abs_sub q (x / v)
  have htriangle := abs_sub_le y q (x / v)
  unfold quotientError
  unfold wideError at hclose
  unfold narrowError at hnarrow
  linarith

/-! ## Quotients by numbers close to one -/

/-- How far a divisor may lie from one for a weight to stay where it is. -/
def divisorSlack : ℚ := 49 / 10 ^ 8

/-- An exact quotient by a number close to one is off by little more than the divisor is. -/
private theorem exact_div_stays {v : ℚ} (hclose : |v - 1| ≤ divisorSlack) (x : ℚ) :
    |x / v - x| ≤ |x| * (491 / 10 ^ 9) ∧ |x| / 2 ≤ |x / v| ∧ |x / v| ≤ 2 * |x| := by
  obtain ⟨hlow, hhigh⟩ := abs_le.1 hclose
  unfold divisorSlack at hlow hhigh
  have hpos : 0 < v := by linarith
  have hexact : |x / v - x| ≤ |x| * (491 / 10 ^ 9) := by
    have hscale : x / v - x = x * ((1 - v) / v) := by field_simp
    rw [hscale, abs_mul, abs_div, abs_of_pos hpos]
    refine mul_le_mul_of_nonneg_left ?_ (abs_nonneg x)
    rw [div_le_iff₀ hpos, abs_le]
    constructor <;> linarith
  have hlower := abs_sub_abs_le_abs_sub x (x / v)
  have hupper := abs_sub_abs_le_abs_sub (x / v) x
  rw [abs_sub_comm] at hlower
  have hnonneg := abs_nonneg x
  refine ⟨hexact, ?_, ?_⟩ <;> linarith

/-- A weight that is divided by a number close to one moves by a millionth of it at most. -/
theorem narrow_div_stays {w : Float32} {d : Float} {x v : ℚ} (hw : value? w = some x)
    (hd : wideValue? d = some v) (hclose : |v - 1| ≤ divisorSlack)
    (hfinite : (narrow (widen w / d)).isFinite) :
    |valueOf (narrow (widen w / d)) - x| ≤ |x| / 10 ^ 6 := by
  obtain ⟨hexact, hhalf, hdouble⟩ := exact_div_stays hclose x
  have hne : v ≠ 0 := by
    rintro rfl
    norm_num [divisorSlack] at hclose
  have hlimit : |x / v| ≤ wideLimit := by
    have hx := abs_valueOf_lt w
    rw [valueOf_eq hw] at hx
    calc |x / v| ≤ 2 ^ 129 := by linarith
      _ ≤ wideLimit := pow_le_wideLimit (by norm_num)
  -- Numbers of single precision are so large that in double precision their quotients have a leading
  -- bit
  have hnormal : x = 0 ∨ 2 ^ (-1022 : ℤ) ≤ |x / v| := by
    by_cases hx : x = 0
    · exact Or.inl hx
    · right
      calc (2 : ℚ) ^ (-1022 : ℤ) ≤ 2 ^ (-150 : ℤ) :=
            zpow_le_zpow_right₀ (by norm_num) (by norm_num)
        _ = 2 ^ (-149 : ℤ) / 2 := by norm_num
        _ ≤ |x| / 2 := div_le_div_of_nonneg_right (le_abs_of_value? hw hx) (by norm_num)
        _ ≤ |x / v| := hhalf
  obtain ⟨q, hq, -, hrelative⟩ := wideValue?_div (wideValue?_widen hw) hd hne hlimit
  have hdivision := hrelative hnormal
  unfold wideError at hdivision
  -- The weight itself is a number of single precision, so the quotient is stored no further away
  obtain ⟨-, hnearest⟩ := narrow_nearest hq hfinite
  have hstored := hnearest w x hw
  have hquotient : |x - q| ≤ |x| * (495 / 10 ^ 9) := by
    have htriangle := abs_sub_le q (x / v) x
    rw [abs_sub_comm]
    linarith
  have htriangle := abs_sub_le (valueOf (narrow (widen w / d))) q x
  rw [abs_sub_comm q x] at htriangle
  linarith

end Stencil.Precision
