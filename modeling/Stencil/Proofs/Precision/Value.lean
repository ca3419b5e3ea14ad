import Mathlib
import Stencil.Precision
import Stencil.Proofs.Decimal.Written

/-!
# Values as rational numbers

The rational number that a decoded float, a decimal or a numeral stands for.  Infinities and NaN
stand for none.

## Key results

- `isSome_value?`: a number has a value when it is finite
- `fixedUnits_close`: rounding to fixed places is off by at most half a unit of the last place
- `fixed_close`: a number written with fixed places reads as a value that close to its own
-/

namespace Stencil

open Float.Model (UnpackedFloat)
open Float.Model.UnpackedFloat (Sign)

/-! ## Values -/

/-- The value of a decimal. -/
def Decimal.value (d : Decimal) : ℚ := d.digits * 10 ^ d.exponent

/-- The value of a numeral, if it has one. -/
def Numeral.value? : Numeral → Option ℚ
  | .decimal negative d => some (if negative then -d.value else d.value)
  | _ => none

namespace Precision

/-- The value of a decoded float, if it has one. -/
def decodedValue? : UnpackedFloat → Option ℚ
  | .zero _ => some 0
  | .finite sign m e _ => some (sign.apply m * 2 ^ e)
  | _ => none

/-- The value of a single precision number, if it has one. -/
def value? (x : Float32) : Option ℚ := decodedValue? x.toModel.unpack

/-- A number has a value when it is finite. -/
theorem isSome_value? (x : Float32) : (value? x).isSome = x.isFinite := by
  show (decodedValue? x.toModel.unpack).isSome = x.toModel.unpack.isFinite
  cases x.toModel.unpack with
  | notANumber => rfl
  | infinity sign => rfl
  | zero sign => rfl
  | finite sign m e hm => rfl

/-- The value of a single precision number.  Infinities and NaN count as zero. -/
def valueOf (x : Float32) : ℚ := (value? x).getD 0

/-- A finite number has its value. -/
theorem value?_of_isFinite {x : Float32} (h : x.isFinite) : value? x = some (valueOf x) := by
  rw [← isSome_value?, Option.isSome_iff_exists] at h
  obtain ⟨v, hv⟩ := h
  rw [valueOf, hv, Option.getD_some]

theorem valueOf_eq {x : Float32} {v : ℚ} (h : value? x = some v) : valueOf x = v := by
  rw [valueOf, h, Option.getD_some]

/-- The value of a double precision number, if it has one. -/
def wideValue? (x : Float) : Option ℚ := decodedValue? x.toModel.unpack

/-- The value of a decoded number has the sign of the number. -/
theorem abs_apply (sign : Sign) (m : ℕ) (e : ℤ) :
    |(sign.apply m : ℚ) * 2 ^ e| = m * 2 ^ e := by
  have hunit : (0 : ℚ) < 2 ^ e := by positivity
  cases sign with
  | positive => simp [Sign.apply, abs_mul]
  | negative => simp [Sign.apply, abs_mul]

/-- The magnitude of a decoded number is above zero. -/
theorem magnitude_pos {m : ℕ} (hm : 0 < m) (e : ℤ) : (0 : ℚ) < m * 2 ^ e :=
  mul_pos (by exact_mod_cast hm) (by positivity)

/-- The value of a decoded number is its magnitude with the sign. -/
theorem apply_eq_mul (sign : Sign) (m : ℕ) (e : ℤ) :
    (sign.apply m : ℚ) * 2 ^ e = (sign.apply 1 : ℤ) * (m * 2 ^ e) := by
  cases sign <;> simp [Sign.apply]

theorem mul_apply_one (s₁ s₂ : Sign) : (s₁ * s₂).apply 1 = s₁.apply 1 * s₂.apply 1 := by
  cases s₁ <;> cases s₂ <;> rfl

theorem div_apply_one (s₁ s₂ : Sign) : (s₁ / s₂).apply 1 = s₁.apply 1 * s₂.apply 1 := by
  cases s₁ <;> cases s₂ <;> rfl

/-- A sign taken twice is no sign. -/
theorem apply_one_mul_self (sign : Sign) (a : ℚ) :
    ((sign.apply 1 : ℤ) : ℚ) * ((sign.apply 1 : ℤ) * a) = a := by
  cases sign <;> simp [Sign.apply]

/-- Dividing by a sign gives it to the number. -/
theorem div_apply_one_eq (sign : Sign) (a : ℚ) :
    a / (sign.apply 1 : ℤ) = a * (sign.apply 1 : ℤ) := by
  cases sign <;> simp [Sign.apply, div_neg]

/-- The quotient of two decoded numbers is the quotient of their magnitudes with both signs. -/
theorem apply_div_apply (s₁ s₂ : Sign) (m₁ m₂ : ℕ) (e₁ e₂ : ℤ) :
    (s₁.apply m₁ : ℚ) * 2 ^ e₁ / (s₂.apply m₂ * 2 ^ e₂) =
      ((s₁ / s₂).apply 1 : ℤ) * (m₁ * 2 ^ e₁ / (m₂ * 2 ^ e₂)) := by
  rw [apply_eq_mul, apply_eq_mul s₂, div_apply_one, Int.cast_mul, mul_div_mul_comm, div_apply_one_eq]

/-- A sign does not change a magnitude. -/
theorem abs_apply_one_mul (sign : Sign) (a : ℚ) : |((sign.apply 1 : ℤ) : ℚ) * a| = |a| := by
  rw [abs_mul]
  cases sign <;> simp [Sign.apply]

/-- Numbers with the same sign are as far from each other as their magnitudes. -/
theorem abs_apply_sub (sign : Sign) (a b : ℚ) :
    |((sign.apply 1 : ℤ) : ℚ) * a - (sign.apply 1 : ℤ) * b| = |a - b| := by
  rw [← mul_sub, abs_apply_one_mul]

/-- A power of two is a quotient of two whole powers, of which one is one. -/
theorem zpow_mul_pow_toNat (e : ℤ) : (2 : ℚ) ^ e * 2 ^ (-e).toNat = 2 ^ e.toNat := by
  rw [← zpow_natCast, ← zpow_natCast, ← zpow_add₀ (by norm_num)]
  congr 1
  omega

/-- A number with a value is a zero, or has the mantissa and the exponent of the value. -/
theorem decodedValue?_eq_some {u : UnpackedFloat} {v : ℚ} (h : decodedValue? u = some v) :
    (∃ sign, u = .zero sign ∧ v = 0) ∨
      ∃ sign m e hm, u = .finite sign m e hm ∧ v = sign.apply m * 2 ^ e := by
  cases u with
  | notANumber => exact absurd h (by simp [decodedValue?])
  | infinity sign => exact absurd h (by simp [decodedValue?])
  | zero sign => exact Or.inl ⟨sign, rfl, (Option.some.inj h).symm⟩
  | finite sign m e hm => exact Or.inr ⟨sign, m, e, hm, rfl, (Option.some.inj h).symm⟩

end Precision

/-! ## Rounding to fixed places -/

namespace Decimal

open Precision (value?)

/-- Rounding to fixed places is off by at most half a unit of the last place. -/
theorem fixedUnits_close (places m : ℕ) (e : ℤ) :
    |(fixedUnits places m e : ℚ) - m * 2 ^ e * 10 ^ places| ≤ 1 / 2 := by
  cases e with
  | ofNat k =>
    -- A whole number has an exact count of units
    have hexact : ((fixedUnits places m (.ofNat k) : ℕ) : ℚ) =
        m * 2 ^ (Int.ofNat k) * 10 ^ places := by
      show ((m * 2 ^ k * 10 ^ places : ℕ) : ℚ) = _
      push_cast
      rfl
    rw [hexact, sub_self, abs_zero]
    norm_num
  | negSucc k =>
    -- A quotient: `roundDiv_close`, divided by twice the denominator
    have hden : 0 < 2 ^ (k + 1) := Nat.two_pow_pos (k + 1)
    obtain ⟨hlow, hhigh⟩ := roundDiv_close (m * 10 ^ places) hden
    have hunits : fixedUnits places m (.negSucc k) = roundDiv (m * 10 ^ places) (2 ^ (k + 1)) := rfl
    rw [hunits]
    generalize roundDiv (m * 10 ^ places) (2 ^ (k + 1)) = units at *
    have hquotient : (m : ℚ) * 2 ^ (Int.negSucc k) * 10 ^ places =
        m * 10 ^ places / 2 ^ (k + 1) := by
      rw [zpow_negSucc]
      ring
    have hdenQ : (0 : ℚ) < 2 ^ (k + 1) := by positivity
    have hlowQ : (2 * (m * 10 ^ places) : ℚ) ≤ 2 * (units * 2 ^ (k + 1)) + 2 ^ (k + 1) := by
      exact_mod_cast hlow
    have hhighQ : (2 * (units * 2 ^ (k + 1)) : ℚ) ≤ 2 * (m * 10 ^ places) + 2 ^ (k + 1) := by
      exact_mod_cast hhigh
    rw [hquotient, abs_le]
    constructor
    · rw [le_sub_iff_add_le, ← le_sub_iff_add_le', div_le_iff₀ hdenQ]
      linarith
    · rw [sub_le_iff_le_add, ← sub_le_iff_le_add', le_div_iff₀ hdenQ]
      linarith

/-- A number written with fixed places reads as a value that is off by at most half a unit of the
    last place. -/
theorem fixed_close {places : ℕ} (hplaces : 0 < places) {x : Float32} {v : ℚ}
    (hx : value? x = some v) :
    ∃ negative units, Numeral.read? (fixed places x).toList =
        some (.decimal negative ⟨units, -(places : ℤ)⟩) ∧
      |(if negative then -Decimal.value ⟨units, -(places : ℤ)⟩
        else Decimal.value ⟨units, -(places : ℤ)⟩) - v| ≤ 1 / 2 * 10 ^ (-(places : ℤ)) := by
  rw [fixed, String.toList_ofList]
  unfold value? at hx
  cases hu : x.toModel.unpack with
  | notANumber => simp [hu, Precision.decodedValue?] at hx
  | infinity sign => simp [hu, Precision.decodedValue?] at hx
  | zero sign =>
    rw [hu] at hx
    obtain rfl : 0 = v := Option.some.inj hx
    refine ⟨_, _, read?_signed hplaces sign 0, ?_⟩
    simp only [Decimal.value, Nat.cast_zero, zero_mul, neg_zero, ite_self, sub_self, abs_zero]
    positivity
  | finite sign m e hm =>
    rw [hu] at hx
    obtain rfl : (sign.apply m : ℚ) * 2 ^ e = v := Option.some.inj hx
    refine ⟨_, _, read?_fixedChars hplaces sign e hm, ?_⟩
    have hclose := fixedUnits_close places m e
    generalize fixedUnits places m e = units at *
    -- The magnitudes differ by at most half a unit, and both sides have the same sign.
    have hmagnitude : |(units : ℚ) * 10 ^ (-(places : ℤ)) - m * 2 ^ e| ≤
        1 / 2 * 10 ^ (-(places : ℤ)) := by
      have hscale : (units : ℚ) * 10 ^ (-(places : ℤ)) - m * 2 ^ e =
          (units - m * 2 ^ e * 10 ^ places) * 10 ^ (-(places : ℤ)) := by
        rw [sub_mul, mul_assoc (_ * _), ← zpow_natCast, ← zpow_add₀ (by norm_num)]
        simp
      rw [hscale, abs_mul, abs_of_pos (by positivity : (0 : ℚ) < 10 ^ (-(places : ℤ)))]
      exact mul_le_mul_of_nonneg_right hclose (by positivity)
    cases sign with
    | positive =>
      simpa [Decimal.value, isMinus, Sign.apply] using hmagnitude
    | negative =>
      rw [abs_sub_comm] at hmagnitude
      simpa [Decimal.value, isMinus, Sign.apply, sub_eq_add_neg, add_comm] using hmagnitude

end Decimal

end Stencil
