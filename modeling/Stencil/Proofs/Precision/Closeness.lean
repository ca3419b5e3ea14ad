import Stencil.Proofs.Precision.Quotient

/-!
# What rounding costs

Rounding stores the nearest number of units of the last place, so it moves a number by half a unit
at most.  For a number with a leading bit that is a small part of the number.  Below the numbers
with a leading bit the unit is the smallest one, and the part may be large, but no number of the
format is nearer, and what is a whole number of the smallest units is not moved at all.

## Key results

- `Placed.nearest_close` / `Placed.nearest_error`: the error as a part of the number, with what is
  added to it below the numbers with a leading bit
- `Placed.nearest_close_of_low`: nothing is added for a whole number of the smallest units
- `Placed.dist_le`: no number of the format is nearer than the rounded one
- `Stored.value_eq` / `Stored.value_of_lt`: what rounding stores has the value of its units with the
  sign, and keeps it where it is packed
- `Stored.wide_value`: in double precision, it does so far from the end of the format
-/

namespace Stencil.Precision

open Float.Model (Format UnpackedFloat)
open Float.Model.UnpackedFloat

/-! ## Half a unit -/

/-- The nearest number of units is off by half a unit at most. -/
theorem IsNearest.units_close {x : ℚ} {n : ℕ} {t : ℤ} (h : IsNearest (x / 2 ^ t) n) :
    |(n : ℚ) * 2 ^ t - x| ≤ 1 / 2 * 2 ^ t := by
  have hunit : (0 : ℚ) < 2 ^ t := by positivity
  have herror : (n : ℚ) * 2 ^ t - x = (n - x / 2 ^ t) * 2 ^ t := by
    rw [sub_mul, div_mul_cancel₀ _ hunit.ne']
  rw [herror, abs_mul, abs_of_pos hunit, abs_sub_comm]
  exact mul_le_mul_of_nonneg_right h.close hunit.le

/-- Half a unit, counted in the place of the leading bit. -/
private theorem half_mul_zpow (spec : Format) (t : ℤ) :
    (1 / 2 : ℚ) * 2 ^ t = 2 ^ (t + spec.mantissaBitsWithoutImplicit) / 2 ^ spec.mantissaBits := by
  rw [Format.mantissaBits, pow_add, zpow_add₀ (by norm_num), zpow_natCast]
  field_simp

/-- Rounding moves a number with a leading bit by a small part of it. -/
theorem IsNearest.close_of_leading {spec : Format} {x : ℚ} {t : ℤ} {n : ℕ}
    (h : IsNearest (x / 2 ^ t) n) (hleading : 2 ^ (t + spec.mantissaBitsWithoutImplicit) ≤ x) :
    |(n : ℚ) * 2 ^ t - x| ≤ x / 2 ^ spec.mantissaBits := by
  refine h.units_close.trans ?_
  rw [half_mul_zpow spec]
  gcongr

/-- Rounding moves a number that is no smaller than the normal ones by half a unit of its last place
    at most. -/
theorem Placed.nearest_close {spec : Format} {x : ℚ} {t : ℤ} {n : ℕ} (h : Placed spec x t)
    (hn : IsNearest (x / 2 ^ t) n)
    (hnormal : 2 ^ (spec.minExponent + spec.mantissaBitsWithoutImplicit) ≤ x) :
    |(n : ℚ) * 2 ^ t - x| ≤ x / 2 ^ spec.mantissaBits := by
  rcases h.leading with hleading | rfl
  · exact hn.close_of_leading hleading
  · exact hn.close_of_leading hnormal

/-- Below the normal numbers the error is that of the smallest of them. -/
theorem Placed.nearest_error {spec : Format} {x : ℚ} {t : ℤ} {n : ℕ} (h : Placed spec x t)
    (hn : IsNearest (x / 2 ^ t) n) (hx : 0 ≤ x) :
    |(n : ℚ) * 2 ^ t - x| ≤
      (x + 2 ^ (spec.minExponent + spec.mantissaBitsWithoutImplicit)) / 2 ^ spec.mantissaBits := by
  have hnormal : (0 : ℚ) < 2 ^ (spec.minExponent + spec.mantissaBitsWithoutImplicit) := by
    positivity
  rcases h.leading with hleading | rfl
  · refine (hn.close_of_leading hleading).trans ?_
    gcongr
    linarith
  · refine hn.units_close.trans ?_
    rw [half_mul_zpow spec]
    gcongr
    linarith

/-- The whole number nearest to a whole number is that number. -/
theorem IsNearest.eq_of_natCast {a n : ℕ} (h : IsNearest a n) : n = a := by
  obtain ⟨hlow, hhigh⟩ := abs_le.1 h.close
  have hbelow : (a : ℚ) < (n + 1 : ℕ) := by push_cast; linarith
  have habove : (n : ℚ) < (a + 1 : ℕ) := by push_cast; linarith
  have := Nat.cast_lt.1 hbelow
  have := Nat.cast_lt.1 habove
  omega

/-- A whole number of units that the format has is moved by a small part of it, also below the
    normal numbers: there it is a whole number of the smallest units. -/
theorem Placed.nearest_close_of_low {spec : Format} {m n : ℕ} {e t : ℤ}
    (h : Placed spec (m * 2 ^ e) t) (hn : IsNearest (m * 2 ^ e / 2 ^ t) n)
    (he : spec.minExponent ≤ e) :
    |(n : ℚ) * 2 ^ t - m * 2 ^ e| ≤ m * 2 ^ e / 2 ^ spec.mantissaBits := by
  rcases h.leading with hleading | rfl
  · exact hn.close_of_leading hleading
  · obtain ⟨k, rfl⟩ := Int.le.dest he
    have hscale : (m : ℚ) * 2 ^ (spec.minExponent + k) = (m * 2 ^ k : ℕ) * 2 ^ spec.minExponent := by
      rw [zpow_add₀ (by norm_num), zpow_natCast]
      push_cast
      ring
    rw [hscale, mul_div_cancel_right₀ _ (by positivity)] at hn
    rw [hn.eq_of_natCast, hscale, sub_self, abs_zero]
    positivity

/-! ## Nearest of all numbers -/

/-- No whole number is nearer than the nearest one. -/
theorem IsNearest.dist_le {x : ℚ} {n : ℕ} (h : IsNearest x n) (k : ℤ) : |(n : ℚ) - x| ≤ |k - x| := by
  by_cases hk : k = n
  · rw [hk, Int.cast_natCast]
  · -- Another whole number is one away, and the nearest one takes half of that at most
    have hone : (1 : ℚ) ≤ |(k : ℚ) - n| := by
      exact_mod_cast Int.one_le_abs (sub_ne_zero.2 hk)
    have htriangle := abs_sub_le (k : ℚ) x n
    have hclose := h.close
    rw [abs_sub_comm] at hclose
    rw [abs_sub_comm x] at htriangle
    linarith

/-- No number of the format is nearer than the rounded one. -/
theorem Placed.dist_le {spec : Format} {x : ℚ} {t : ℤ} {n : ℕ} (h : Placed spec x t)
    (hn : IsNearest (x / 2 ^ t) n) (sign : Sign) {m : ℕ} {e : ℤ} (hm : Canonical spec m e) :
    |(n : ℚ) * 2 ^ t - x| ≤ |sign.apply m * 2 ^ e - x| := by
  have hunit : (0 : ℚ) < 2 ^ t := by positivity
  -- Whole numbers of the units of the last place are no nearer
  have hwhole : ∀ k : ℤ, |(n : ℚ) * 2 ^ t - x| ≤ |k * 2 ^ t - x| := by
    intro k
    have hscale : ∀ z : ℚ, |z * 2 ^ t - x| = |z - x / 2 ^ t| * 2 ^ t := by
      intro z
      rw [← abs_of_pos hunit, ← abs_mul, abs_of_pos hunit, sub_mul, div_mul_cancel₀ _ hunit.ne']
    rw [hscale, hscale]
    exact mul_le_mul_of_nonneg_right (hn.dist_le k) hunit.le
  rcases le_or_gt t e with hle | hlt
  · obtain ⟨k, rfl⟩ := Int.le.dest hle
    have hvalue : (sign.apply m : ℚ) * 2 ^ (t + k) = (sign.apply m * 2 ^ k : ℤ) * 2 ^ t := by
      rw [zpow_add₀ (by norm_num), zpow_natCast]
      push_cast
      ring
    rw [hvalue]
    exact hwhole _
  · -- A number in smaller units lies below the leading bit, which is nearer
    have hbits : spec.mantissaBits = 1 + spec.mantissaBitsWithoutImplicit := rfl
    have hleading : 2 ^ (t + spec.mantissaBitsWithoutImplicit) ≤ x :=
      h.leading.resolve_right (by have := hm.low; omega)
    have hvalue : (sign.apply m : ℚ) * 2 ^ e ≤ 2 ^ (t + spec.mantissaBitsWithoutImplicit) :=
      calc (sign.apply m : ℚ) * 2 ^ e ≤ |(sign.apply m : ℚ) * 2 ^ e| := le_abs_self _
        _ = m * 2 ^ e := abs_apply sign m e
        _ ≤ 2 ^ spec.mantissaBits * 2 ^ e := by
            gcongr
            exact_mod_cast hm.mantissa_lt.le
        _ = 2 ^ (e + spec.mantissaBits) := by
            rw [zpow_add₀ (by norm_num), zpow_natCast, mul_comm]
        _ ≤ 2 ^ (t + spec.mantissaBitsWithoutImplicit) :=
            zpow_le_zpow_right₀ (by norm_num) (by omega)
    calc |(n : ℚ) * 2 ^ t - x|
        ≤ |((2 ^ spec.mantissaBitsWithoutImplicit : ℤ) : ℚ) * 2 ^ t - x| := hwhole _
      _ = |2 ^ (t + spec.mantissaBitsWithoutImplicit) - x| := by
          rw [zpow_add₀ (by norm_num), zpow_natCast, mul_comm]
          push_cast
          rfl
      _ ≤ |sign.apply m * 2 ^ e - x| := by
          rw [abs_of_nonpos (by linarith), abs_of_nonpos (by linarith)]
          linarith

/-! ## Values -/

/-- A packed zero keeps its value. -/
theorem decodedValue?_packedZero (spec : Format) (sign : Sign) :
    decodedValue? (unpack spec (packedZero spec sign)) = some 0 := by
  rw [unpack_packedZero]
  rfl

/-- What rounding stores has the value of its units with the sign. -/
theorem Stored.value_eq {spec : Format} {sign : Sign} {n : ℕ} {t : ℤ} {u : UnpackedFloat}
    (h : Stored spec sign n t u) : decodedValue? u = some ((sign.apply 1 : ℤ) * ((n : ℚ) * 2 ^ t)) := by
  cases u with
  | notANumber => exact absurd h id
  | infinity s => exact absurd h id
  | zero s =>
    obtain ⟨-, rfl⟩ := h
    simp [decodedValue?]
  | finite s m e hm =>
    obtain ⟨rfl, -, hvalue⟩ := h
    rw [decodedValue?, ← hvalue]
    cases s <;> simp [Sign.apply]

/-- Below the first power of two beyond the format that value survives packing. -/
theorem Stored.value_of_lt {spec : Format} {sign : Sign} {n : ℕ} {t : ℤ} {u : UnpackedFloat}
    (h : Stored spec sign n t u) (hspec : 2 ≤ spec.exponentBits)
    (hlt : (n : ℚ) * 2 ^ t < overflow spec) :
    decodedValue? (unpack spec (pack spec u)) = some ((sign.apply 1 : ℤ) * ((n : ℚ) * 2 ^ t)) := by
  rw [h.unpack_pack hspec, if_pos hlt]
  exact h.value_eq

/-! ## Double precision -/

/-- The part of a number that storing it in double precision costs. -/
def wideError : ℚ := 1 / 2 ^ 53

theorem wideError_pos : 0 < wideError := by norm_num [wideError]

/-- Numbers below this bound are far from the end of double precision. -/
@[irreducible] def wideLimit : ℚ := 2 ^ 1000

theorem pow_le_wideLimit {k : ℕ} (hk : k ≤ 1000) : (2 : ℚ) ^ k ≤ wideLimit := by
  rw [wideLimit]
  exact pow_le_pow_right₀ (by norm_num) hk

theorem two_mul_wideLimit_lt : 2 * wideLimit < overflow .binary64 := by
  have hoverflow : overflow .binary64 = 2 ^ 1024 := rfl
  rw [hoverflow, wideLimit, ← pow_succ']
  exact pow_lt_pow_right₀ (by norm_num) (by norm_num)

/-- What is stored for a number that is not near the end of double precision keeps its value where it
    is packed. -/
theorem Stored.wide_value {sign : Sign} {x : ℚ} {n : ℕ} {t : ℤ} {u : UnpackedFloat}
    (h : Stored .binary64 sign n t u) (hx : x ≤ wideLimit)
    (hclose : |(n : ℚ) * 2 ^ t - x| ≤ wideLimit) :
    decodedValue? (unpack .binary64 (pack .binary64 u)) =
      some ((sign.apply 1 : ℤ) * ((n : ℚ) * 2 ^ t)) := by
  refine h.value_of_lt (by decide) ?_
  have hhigh := (abs_le.1 hclose).2
  calc (n : ℚ) * 2 ^ t ≤ 2 * wideLimit := by linarith
    _ < overflow .binary64 := two_mul_wideLimit_lt

end Stencil.Precision
