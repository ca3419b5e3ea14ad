import Stencil.Proofs.Precision.Quotient

/-!
# Numbers are compared by their values

Two stored numbers are compared by their signs, then by their exponents, and by their mantissas only
where the exponents agree.  For the form in which a format stores its numbers this is the order of
the values: a mantissa without leading bit has the smallest exponent, so a higher exponent makes
the larger number.

## Key results

- `Canonical.compares`: canonical numbers are ordered by exponent, then by mantissa
- `compare_unpack`: what is unpacked is compared as the values are
- `lt_iff_value` / `beq_iff_value` / `wide_lt_iff_value` / `wide_beq_iff_value`: the comparisons of both
  precisions
- `wideValue?_abs`: the value of a magnitude
-/

namespace Stencil.Precision

open Float.Model (Format UnpackedFloat)
open Float.Model.UnpackedFloat

/-! ## Canonical numbers -/

/-- A canonical number with a higher exponent is larger. -/
private theorem Canonical.lt_of_exponent_lt {spec : Format} {m₁ m₂ : ℕ} {e₁ e₂ : ℤ}
    (h₁ : Canonical spec m₁ e₁) (h₂ : Canonical spec m₂ e₂) (hlt : e₁ < e₂) :
    (m₁ : ℚ) * 2 ^ e₁ < m₂ * 2 ^ e₂ := by
  have hbits : spec.mantissaBits = 1 + spec.mantissaBitsWithoutImplicit := rfl
  have hleading : 2 ^ spec.mantissaBitsWithoutImplicit ≤ m₂ :=
    h₂.leading.resolve_right (by have := h₁.low; omega)
  calc (m₁ : ℚ) * 2 ^ e₁ < 2 ^ spec.mantissaBits * 2 ^ e₁ := by
        gcongr
        exact_mod_cast h₁.mantissa_lt
    _ = 2 ^ (e₁ + spec.mantissaBits) := by rw [zpow_add₀ (by norm_num), zpow_natCast, mul_comm]
    _ ≤ 2 ^ (e₂ + spec.mantissaBitsWithoutImplicit) :=
        zpow_le_zpow_right₀ (by norm_num) (by omega)
    _ = 2 ^ spec.mantissaBitsWithoutImplicit * 2 ^ e₂ := by
        rw [zpow_add₀ (by norm_num), zpow_natCast, mul_comm]
    _ ≤ m₂ * 2 ^ e₂ := by
        gcongr
        exact_mod_cast hleading

/-- Canonical numbers are ordered by their exponents, and by their mantissas where these agree. -/
theorem Canonical.compares {spec : Format} {m₁ m₂ : ℕ} {e₁ e₂ : ℤ} (h₁ : Canonical spec m₁ e₁)
    (h₂ : Canonical spec m₂ e₂) :
    ((compare e₁ e₂).then (compare m₁ m₂)).Compares ((m₁ : ℚ) * 2 ^ e₁) (m₂ * 2 ^ e₂) := by
  rcases lt_trichotomy e₁ e₂ with hlt | rfl | hgt
  · rw [compare_lt_iff_lt.2 hlt]
    exact h₁.lt_of_exponent_lt h₂ hlt
  · have hunit : (0 : ℚ) < 2 ^ e₁ := by positivity
    rw [compare_eq_iff_eq.2 rfl]
    rcases lt_trichotomy m₁ m₂ with hm | rfl | hm
    · rw [compare_lt_iff_lt.2 hm]
      exact mul_lt_mul_of_pos_right (by exact_mod_cast hm) hunit
    · rw [compare_eq_iff_eq.2 rfl]
      exact (rfl : _ = _)
    · rw [compare_gt_iff_gt.2 hm]
      exact mul_lt_mul_of_pos_right (by exact_mod_cast hm) hunit
  · rw [compare_gt_iff_gt.2 hgt]
    exact h₂.lt_of_exponent_lt h₁ hgt

/-- Changing the signs turns an order around. -/
private theorem Ordering.compares_neg {o : Ordering} {a b : ℚ} (h : o.Compares a b) :
    o.swap.Compares (-a) (-b) := by
  cases o with
  | lt => exact neg_lt_neg (show a < b from h)
  | eq => exact congrArg Neg.neg (show a = b from h)
  | gt => exact neg_lt_neg (show b < a from h)

/-- What is unpacked is compared as the values are. -/
theorem compare_unpack {spec : Format} {a b : BitVec spec.numBits} {v w : ℚ}
    (ha : decodedValue? (unpack spec a) = some v) (hb : decodedValue? (unpack spec b) = some w) :
    (unpack spec a).compare (unpack spec b) = some (compare v w) := by
  -- It is enough that the answer of the comparison fits the values
  have hsome : ∀ o : Ordering, o.Compares v w → some o = some (compare v w) :=
    fun o ho => congrArg some ((compare_iff v w).2 ho).symm
  rcases decodedValue?_eq_some ha with ⟨s₁, hu₁, rfl⟩ | ⟨s₁, m₁, e₁, h₁, hu₁, rfl⟩ <;>
    rcases decodedValue?_eq_some hb with ⟨s₂, hu₂, rfl⟩ | ⟨s₂, m₂, e₂, h₂, hu₂, rfl⟩
  · rw [hu₁, hu₂]
    exact hsome .eq rfl
  · rw [hu₁, hu₂]
    have := magnitude_pos h₂ e₂
    cases s₂ with
    | positive => exact hsome .lt (by simpa [Ordering.Compares, Sign.apply] using this)
    | negative => exact hsome .gt (by simpa [Ordering.Compares, Sign.apply] using this)
  · rw [hu₁, hu₂]
    have := magnitude_pos h₁ e₁
    cases s₁ with
    | positive => exact hsome .gt (by simpa [Ordering.Compares, Sign.apply] using this)
    | negative => exact hsome .lt (by simpa [Ordering.Compares, Sign.apply] using this)
  · have hcompares := (canonical_unpack hu₁).compares (canonical_unpack hu₂)
    have hpos₁ := magnitude_pos h₁ e₁
    have hpos₂ := magnitude_pos h₂ e₂
    rw [hu₁, hu₂]
    cases s₁ with
    | positive =>
      cases s₂ with
      | positive => exact hsome _ hcompares
      | negative =>
        refine hsome .gt ?_
        simp only [Ordering.Compares, Sign.apply]
        push_cast
        linarith
    | negative =>
      cases s₂ with
      | positive =>
        refine hsome .lt ?_
        simp only [Ordering.Compares, Sign.apply]
        push_cast
        linarith
      | negative =>
        refine hsome _ ?_
        simp only [Sign.apply]
        push_cast
        rw [neg_mul, neg_mul]
        exact Ordering.compares_neg hcompares

/-! ## Both precisions -/

/-- A comparison for less of what is unpacked. -/
private theorem lt_unpack_iff {spec : Format} {a b : BitVec spec.numBits} {v w : ℚ}
    (ha : decodedValue? (unpack spec a) = some v) (hb : decodedValue? (unpack spec b) = some w) :
    (unpack spec a).lt (unpack spec b) ↔ v < w := by
  unfold UnpackedFloat.lt
  rw [compare_unpack ha hb, ← compare_lt_iff_lt]
  simp

/-- A comparison for equality of what is unpacked. -/
private theorem beq_unpack_iff {spec : Format} {a b : BitVec spec.numBits} {v w : ℚ}
    (ha : decodedValue? (unpack spec a) = some v) (hb : decodedValue? (unpack spec b) = some w) :
    (unpack spec a).compare (unpack spec b) == some .eq ↔ v = w := by
  rw [compare_unpack ha hb, ← compare_eq_iff_eq]
  simp

/-- Numbers of single precision are compared as their values are. -/
theorem lt_iff_value {x y : Float32} {v w : ℚ} (hx : value? x = some v) (hy : value? y = some w) :
    x < y ↔ v < w := by
  rw [← lt_unpack_iff hx hy]
  exact decide_eq_true_iff

/-- Numbers of double precision are compared as their values are. -/
theorem wide_lt_iff_value {x y : Float} {v w : ℚ} (hx : wideValue? x = some v)
    (hy : wideValue? y = some w) : x < y ↔ v < w := by
  rw [← lt_unpack_iff hx hy]
  exact decide_eq_true_iff

/-- Numbers of single precision are equal when their values are. -/
theorem beq_iff_value {x y : Float32} {v w : ℚ} (hx : value? x = some v) (hy : value? y = some w) :
    x == y ↔ v = w :=
  beq_unpack_iff hx hy

/-- Numbers of double precision are equal when their values are. -/
theorem wide_beq_iff_value {x y : Float} {v w : ℚ} (hx : wideValue? x = some v)
    (hy : wideValue? y = some w) : x == y ↔ v = w :=
  beq_unpack_iff hx hy

/-- The value of a magnitude is the magnitude of the value. -/
theorem wideValue?_abs {x : Float} {v : ℚ} (h : wideValue? x = some v) :
    wideValue? x.abs = some |v| := by
  have habs : x.abs.toModel.unpack = x.toModel.unpack.abs := by
    show unpack .binary64 (pack .binary64 (unpack .binary64 _).abs) = _
    exact unpack_pack_abs _ (by decide)
  rw [wideValue?, habs]
  rcases decodedValue?_eq_some h with ⟨sign, hu, rfl⟩ | ⟨sign, m, e, hm, hu, rfl⟩
  · rw [hu, abs_zero]
    rfl
  · rw [hu, abs_apply]
    simp [UnpackedFloat.abs, decodedValue?, Sign.apply]

end Stencil.Precision
