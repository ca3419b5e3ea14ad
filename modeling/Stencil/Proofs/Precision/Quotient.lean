import Stencil.Proofs.Precision.Nearest

/-!
# Quotients

A weight is divided in double precision and the quotient is rounded to single precision.  Both
roundings are to the nearest number, so an infinity comes out exactly from a quotient on that the
first rounding moves up to half a unit below the first power of two beyond single precision.

## Key results

- `div_nearest` / `storedFor_div`: division stores the number of units nearest to the quotient
- `wideValue?_widen`: widening keeps the value
- `isFinite_narrow_div_iff`: a narrowed quotient is finite when it lies below `quotientLimit`
-/

namespace Stencil.Precision

open Float.Model (Format UnpackedFloat totalExponent)
open Float.Model.UnpackedFloat

/-! ## Division -/

/-- The remainder of a division says where the quotient lies in the unit above its whole part. -/
theorem located_fraction (a : ℕ) {b : ℕ} (hb : 0 < b) :
    Located ((a : ℚ) / b) (a / b) (accuracyOfFraction (a % b) b) := by
  have hbQ : (0 : ℚ) < b := by exact_mod_cast hb
  have hwhole : (a : ℚ) / b = (a / b : ℕ) + (a % b : ℕ) / (b : ℚ) := by
    have hsum : (b : ℚ) * (a / b : ℕ) + (a % b : ℕ) = a := by exact_mod_cast Nat.div_add_mod a b
    rw [div_eq_iff hbQ.ne', add_mul, div_mul_cancel₀ _ hbQ.ne', mul_comm]
    exact hsum.symm
  have hbelow : ((a % b : ℕ) : ℚ) / b < 1 := by
    rw [div_lt_one hbQ]
    exact_mod_cast Nat.mod_lt a hb
  rw [hwhole]
  generalize a / b = q at *
  generalize a % b = r at *
  unfold accuracyOfFraction
  split
  · rename_i hzero
    rw [hzero]
    simp [Located]
  · rename_i hzero
    have hpos : (0 : ℚ) < r / b := div_pos (by exact_mod_cast Nat.pos_of_ne_zero hzero) hbQ
    rcases lt_trichotomy (2 * r) b with hlt | heq | hgt
    · have hhalf : (r : ℚ) / b < 1 / 2 := by
        rw [div_lt_div_iff₀ hbQ (by norm_num)]
        exact_mod_cast (by omega : r * 2 < 1 * b)
      rw [Nat.compare_eq_lt.2 hlt]
      exact ⟨by linarith, by linarith⟩
    · have hhalf : (r : ℚ) / b = 1 / 2 := by
        rw [div_eq_div_iff hbQ.ne' (by norm_num)]
        exact_mod_cast (by omega : r * 2 = 1 * b)
      rw [Nat.compare_eq_eq.2 heq]
      exact congrArg _ hhalf
    · have hhalf : 1 / 2 < (r : ℚ) / b := by
        rw [div_lt_div_iff₀ (by norm_num) hbQ]
        exact_mod_cast (by omega : 1 * b < r * 2)
      rw [Nat.compare_eq_gt.2 hgt]
      exact ⟨by linarith, by linarith⟩

/-- A quotient of natural numbers has at most one bit less than the lengths say, and a numerator
    below the denominator is no longer. -/
private theorem log2_le_log2_div {a b : ℕ} (ha : 0 < a) (hb : 0 < b) :
    a.log2 ≤ b.log2 + (a / b).log2 + 1 ∧ (a / b = 0 → a.log2 ≤ b.log2) := by
  have hbits : b < 2 ^ (b.log2 + 1) := Nat.lt_log2_self
  have hquotient : a / b + 1 ≤ 2 ^ ((a / b).log2 + 1) := Nat.lt_log2_self
  constructor
  · have hlt : a < 2 ^ (b.log2 + (a / b).log2 + 2) :=
      calc a < b * (a / b + 1) := Nat.lt_mul_div_succ a hb
        _ ≤ 2 ^ (b.log2 + 1) * 2 ^ ((a / b).log2 + 1) := Nat.mul_le_mul hbits.le hquotient
        _ = 2 ^ (b.log2 + (a / b).log2 + 2) := by rw [← Nat.pow_add]; congr 1; omega
    have := (Nat.log2_lt (Nat.ne_of_gt ha)).2 hlt
    omega
  · intro hzero
    have hlt : a < b := (Nat.div_eq_zero_iff_lt hb).1 hzero
    have := (Nat.log2_lt (Nat.ne_of_gt ha)).2 (hlt.trans hbits)
    omega

/-- Division stores the number of units nearest to the quotient. -/
theorem div_nearest (spec : Format) (s₁ s₂ : Sign) {m₁ m₂ : ℕ} (h₁ : 0 < m₁) (h₂ : 0 < m₂)
    (e₁ e₂ : ℤ) :
    ∃ n t, Placed spec (m₁ * 2 ^ e₁ / (m₂ * 2 ^ e₂)) t ∧
      IsNearest (m₁ * 2 ^ e₁ / (m₂ * 2 ^ e₂) / 2 ^ t) n ∧
      Stored spec (s₁ / s₂) n t (div spec (.finite s₁ m₁ e₁ h₁) (.finite s₂ m₂ e₂ h₂)) := by
  -- The numerator is lengthened so far that the quotient has the bits of the format
  generalize htarget : min (e₁ - e₂)
    (spec.targetExponent (totalExponent m₁ e₁ - totalExponent m₂ e₂)) = e
  generalize hk : (e₁ - e₂ - e).toNat = k
  have hdiv : div spec (.finite s₁ m₁ e₁ h₁) (.finite s₂ m₂ e₂ h₂) =
      roundWithAccuracy spec (s₁ / s₂) (m₁ * 2 ^ k / m₂) e
        (accuracyOfFraction (m₁ * 2 ^ k % m₂) m₂) := by
    unfold div divCore
    simp only [htarget, hk, Nat.shiftLeft_eq]
  have hlocated : Located (m₁ * 2 ^ e₁ / (m₂ * 2 ^ e₂) / 2 ^ e) (m₁ * 2 ^ k / m₂)
      (accuracyOfFraction (m₁ * 2 ^ k % m₂) m₂) := by
    have hscale : (m₁ : ℚ) * 2 ^ e₁ / (m₂ * 2 ^ e₂) / 2 ^ e = (m₁ * 2 ^ k : ℕ) / (m₂ : ℚ) := by
      have hexponent : e₁ = k + e + e₂ := by omega
      rw [hexponent, zpow_add₀ (by norm_num), zpow_add₀ (by norm_num), zpow_natCast]
      push_cast
      field_simp
    rw [hscale]
    exact located_fraction _ h₂
  have hpos : 0 < m₁ * 2 ^ k := Nat.mul_pos h₁ (Nat.two_pow_pos k)
  obtain ⟨hlong, hshort⟩ := log2_le_log2_div hpos h₂
  rw [log2_mul_two_pow h₁] at hlong hshort
  have hbits := spec.hm
  rw [hdiv]
  refine roundWithAccuracy_nearest (s₁ / s₂) hlocated ?_ fun hzero => ?_
  · rcases Nat.eq_zero_or_pos (m₁ * 2 ^ k / m₂) with hzero | -
    · have := hshort hzero
      rw [hzero]
      unfold Format.targetExponent totalExponent at *
      simp only [Nat.log2_zero]
      omega
    · unfold Format.targetExponent totalExponent at *
      omega
  · have := hshort hzero
    unfold Format.targetExponent totalExponent Format.mantissaBits at *
    omega

/-- Division by a number other than zero stores what the format has for the quotient. -/
theorem storedFor_div (spec : Format) {u₁ u₂ : UnpackedFloat} {a v : ℚ}
    (h₁ : decodedValue? u₁ = some a) (h₂ : decodedValue? u₂ = some v) (hv : v ≠ 0) :
    StoredFor spec (a / v) (div spec u₁ u₂) := by
  obtain ⟨-, -, rfl⟩ | ⟨s₂, m₂, e₂, hm₂, rfl, rfl⟩ := decodedValue?_eq_some h₂
  · exact absurd rfl hv
  rcases decodedValue?_eq_some h₁ with ⟨s₁, rfl, rfl⟩ | ⟨s₁, m₁, e₁, hm₁, rfl, rfl⟩
  · -- Zero divided by a number is zero
    rw [zero_div]
    exact storedFor_zero spec (s₁ / s₂)
  · obtain ⟨n, t, hplaced, hnearest, hstored⟩ := div_nearest spec s₁ s₂ hm₁ hm₂ e₁ e₂
    exact ⟨s₁ / s₂, _, n, t, apply_div_apply s₁ s₂ m₁ m₂ e₁ e₂,
      (div_pos (magnitude_pos hm₁ e₁) (magnitude_pos hm₂ e₂)).le, hplaced, hnearest, hstored⟩

/-! ## Both precisions -/

/-- A number of single precision is stored in double precision with more zeros behind it. -/
theorem unpack_widen_of_finite {x : Float32} {sign : Sign} {m : ℕ} {e : ℤ} {hm : 0 < m}
    (h : x.toModel.unpack = .finite sign m e hm) :
    (widen x).toModel.unpack = .finite sign (m * 2 ^ (52 - m.log2)) (e - (52 - m.log2 : ℕ))
      (Nat.mul_pos hm (Nat.two_pow_pos _)) := by
  have hcanonical : Canonical .binary32 m e := canonical_unpack h
  have hlog : m.log2 < 24 := (Nat.log2_lt (Nat.ne_of_gt hm)).2 hcanonical.mantissa_lt
  have hlow : -149 ≤ e := hcanonical.low
  have hhigh : e + 127 + 23 < 256 := exponent_lt_of_unpack h
  have hwide : Format.binary64.mantissaBitsWithoutImplicit = 52 := rfl
  have hround : UnpackedFloat.round .binary64 sign m e =
      .finite sign (m * 2 ^ (52 - m.log2)) (e - (52 - m.log2 : ℕ))
        (Nat.mul_pos hm (Nat.two_pow_pos _)) := by
    refine round_of_log2_le sign hm (by omega) ?_
    show (-1074 : ℤ) ≤ e + m.log2 - 52
    omega
  show unpack .binary64 (pack .binary64 (reround .binary64 x.toModel.unpack)) = _
  rw [h]
  show unpack .binary64 (pack .binary64 (UnpackedFloat.round .binary64 sign m e)) = _
  rw [hround]
  refine unpack_pack_of_normal _ ?_ ?_ ?_
  · rw [log2_mul_two_pow hm]
    omega
  · show 0 < e - (52 - m.log2 : ℕ) + 1023 + 52
    omega
  · show e - (52 - m.log2 : ℕ) + 1023 + 52 + 1 < 2048
    omega

/-- A zero is widened to a zero. -/
theorem unpack_widen_of_zero {x : Float32} {sign : Sign} (h : x.toModel.unpack = .zero sign) :
    (widen x).toModel.unpack = .zero sign := by
  show unpack .binary64 (pack .binary64 (reround .binary64 x.toModel.unpack)) = _
  rw [h]
  exact unpack_packedZero

/-- Widening keeps the value. -/
theorem wideValue?_widen {x : Float32} {v : ℚ} (h : value? x = some v) :
    wideValue? (widen x) = some v := by
  unfold wideValue?
  rcases decodedValue?_eq_some h with ⟨sign, hu, rfl⟩ | ⟨sign, m, e, hm, hu, rfl⟩
  · rw [unpack_widen_of_zero hu]
    rfl
  · rw [unpack_widen_of_finite hu]
    simp only [decodedValue?, Option.some.injEq]
    rw [zpow_sub₀ (by norm_num), zpow_natCast]
    cases sign <;> simp [Sign.apply] <;> field_simp

/-- The first magnitude of double precision that single precision rounds to an infinity. -/
def narrowLimit : ℚ := (2 ^ 53 - 2 ^ 28) * 2 ^ 75

/-- The first quotient that double precision rounds to `narrowLimit` or more. -/
def quotientLimit : ℚ := (2 ^ 53 - 2 ^ 28 - 1 / 2) * 2 ^ 75

/-- A number of double precision is narrowed to a finite one when it lies below the limit. -/
theorem isFinite_narrow_iff {y : Float} {v : ℚ} (h : wideValue? y = some v) :
    (narrow y).isFinite ↔ |v| < narrowLimit := by
  have hnarrow : (narrow y).isFinite =
      (unpack .binary32 (pack .binary32 (reround .binary32 y.toModel.unpack))).isFinite := rfl
  obtain ⟨sign, x, n, t, rfl, hx, hplaced, hnearest, hstored⟩ := storedFor_reround .binary32 h
  have hbound := hplaced.le_iff hnearest (2 ^ 24) 104 (by decide) (by decide) (by decide)
    (by decide)
  have hoverflow : overflow .binary32 = ((2 ^ 24 : ℕ) : ℚ) * 2 ^ (104 : ℤ) := by
    norm_num [overflow, Format.binary32]
  have hlimit : narrowLimit = (((2 ^ 24 : ℕ) : ℚ) - 1 / 2) * 2 ^ (104 : ℤ) := by
    norm_num [narrowLimit]
  rw [hnarrow, hstored.isFinite_unpack_pack_iff (by decide), abs_apply_one_mul, abs_of_nonneg hx,
    hoverflow, hlimit, ← not_le, hbound, not_le]

/-- What division stores in double precision is narrowed to a finite number when it lies below the
    limit. -/
private theorem Stored.isFinite_narrow_iff {y : Float} {sign : Sign} {n : ℕ} {t : ℤ}
    {u : UnpackedFloat} (h : Stored .binary64 sign n t u)
    (hy : y.toModel.unpack = unpack .binary64 (pack .binary64 u)) :
    (narrow y).isFinite ↔ (n : ℚ) * 2 ^ t < narrowLimit := by
  rw [h.unpack_pack (by decide)] at hy
  split at hy
  · obtain ⟨v, hv, habs⟩ := h.exists_value
    rw [Precision.isFinite_narrow_iff (v := v) (by rw [wideValue?, hy, hv]), habs]
  · rename_i hge
    have hinfinity : (narrow y).isFinite = false := by
      show (unpack .binary32 (pack .binary32 (reround .binary32 y.toModel.unpack))).isFinite = _
      rw [hy]
      show (unpack .binary32 (packedInfinity .binary32 sign)).isFinite = false
      rw [unpack_packedInfinity]
      rfl
    have hlimit : narrowLimit ≤ overflow .binary64 :=
      calc narrowLimit ≤ 2 ^ 128 := by norm_num [narrowLimit]
        _ ≤ overflow .binary64 := pow_le_pow_right₀ (by norm_num) (by decide)
    rw [hinfinity]
    exact iff_of_false Bool.false_ne_true (not_lt.2 (hlimit.trans (not_lt.1 hge)))

/-- A narrowed quotient is finite when it lies below the limit. -/
theorem isFinite_narrow_div_iff {w : Float32} {d : Float} {x v : ℚ} (hw : value? w = some x)
    (hd : wideValue? d = some v) (hv : v ≠ 0) :
    (narrow (widen w / d)).isFinite ↔ |x| < |v| * quotientLimit := by
  have hdiv : (widen w / d).toModel.unpack = unpack .binary64 (pack .binary64
      (div .binary64 (widen w).toModel.unpack d.toModel.unpack)) := rfl
  obtain ⟨sign, q, n, t, hq, hnonneg, hplaced, hnearest, hstored⟩ :=
    storedFor_div .binary64 (wideValue?_widen hw) hd hv
  have hmagnitude : q = |x| / |v| := by
    rw [← abs_div, hq, abs_apply_one_mul, abs_of_nonneg hnonneg]
  have hbound := hplaced.le_iff hnearest (2 ^ 53 - 2 ^ 28) 75 (by decide) (by decide)
    (by decide) (by decide)
  have hnarrow : narrowLimit = ((2 ^ 53 - 2 ^ 28 : ℕ) : ℚ) * 2 ^ (75 : ℤ) := by
    norm_num [narrowLimit]
  have hquotient : quotientLimit = (((2 ^ 53 - 2 ^ 28 : ℕ) : ℚ) - 1 / 2) * 2 ^ (75 : ℤ) := by
    norm_num [quotientLimit]
  rw [hstored.isFinite_narrow_iff hdiv, hnarrow, ← not_le, hbound, not_le, hmagnitude,
    div_lt_iff₀ (abs_pos.2 hv), hquotient, mul_comm |v|]

/-- What is divided by an infinity is finite. -/
theorem isFinite_narrow_div_of_isInf {w : Float32} {d : Float} {x : ℚ} (hw : value? w = some x)
    {s₂ : Sign} (hd : d.toModel.unpack = .infinity s₂) : (narrow (widen w / d)).isFinite := by
  have hdiv : (widen w / d).toModel.unpack = unpack .binary64 (pack .binary64
      (div .binary64 (widen w).toModel.unpack d.toModel.unpack)) := rfl
  obtain ⟨sign, hzero⟩ : ∃ sign, div .binary64 (widen w).toModel.unpack (.infinity s₂) =
      .zero sign := by
    rcases decodedValue?_eq_some (wideValue?_widen hw) with
      ⟨s₁, hu₁, -⟩ | ⟨s₁, m₁, e₁, h₁, hu₁, -⟩
    · exact ⟨s₁ / s₂, by rw [hu₁]; rfl⟩
    · exact ⟨s₁ / s₂, by rw [hu₁]; rfl⟩
  rw [hd, hzero] at hdiv
  have hstored : Stored .binary64 sign 0 0 (.zero sign) := ⟨rfl, rfl⟩
  rw [hstored.isFinite_narrow_iff hdiv]
  norm_num [narrowLimit]

end Stencil.Precision
