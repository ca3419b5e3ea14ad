import Stencil.Proofs.Precision.Rounding
import Stencil.Proofs.Precision.Value

/-!
# Rounding to the nearest number

Rounding cuts a mantissa down to the length of its format and keeps two bits of what was cut off: a
round bit and a sticky bit.  `Located` says what the two bits know, the place of a number in the
unit above the mantissa.  From it follows what rounding stores: the whole number of units nearest to
the number, of two equally near the even one.

## Key results

- `Located.shiftRight`: shifting a mantissa divides the number that it locates
- `roundWithAccuracy_nearest` / `round_nearest`: rounding stores the nearest number of units
- `storedFor_reround`: what any format stores for a decoded number
- `Placed.le_iff`: rounding reaches an even bound of full length from half a unit below it
- `Placed.mono`: rounding keeps the order
- `Stored.unpack_pack`: what rounding stores survives packing, or becomes an infinity
-/

namespace Stencil.Precision

open Float.Model (Format UnpackedFloat totalExponent)
open Float.Model.UnpackedFloat

/-! ## Mantissas with their accuracy -/

/-- Where a number lies in the unit above a mantissa. -/
def Located (x : ℚ) (m : ℕ) : Accuracy → Prop
  | .exact => x = m
  | .inexact .lt => m < x ∧ x < m + 1 / 2
  | .inexact .eq => x = m + 1 / 2
  | .inexact .gt => m + 1 / 2 < x ∧ x < m + 1

/-- A mantissa is the whole part of a number that lies above it. -/
theorem Located.bounds {x : ℚ} {m : ℕ} {accuracy : Accuracy} (h : Located x m accuracy) :
    (m : ℚ) ≤ x ∧ x < m + 1 := by
  unfold Located at h
  split at h <;> constructor <;> linarith

/-- Halving a number moves its lowest bit into the accuracy. -/
theorem Located.shiftRightOne {x : ℚ} {em : ExtendedMantissa}
    (h : Located x em.mantissa em.accuracy) :
    Located (x / 2) em.shiftRightOne.mantissa em.shiftRightOne.accuracy := by
  obtain ⟨m, roundBit, stickyBit⟩ := em
  obtain ⟨half, rfl | rfl⟩ := Nat.even_or_odd' m
  · -- An even mantissa leaves no round bit
    have hhalf : 2 * half / 2 = half := by omega
    have hbit : (2 * half % 2 != 0) = false := by simp
    cases roundBit <;> cases stickyBit <;>
      simp only [ExtendedMantissa.accuracy, ExtendedMantissa.shiftRightOne, Located, hhalf, hbit,
        Bool.or_false, Bool.or_true] at h ⊢ <;>
      push_cast at h <;> grind
  · have hhalf : (2 * half + 1) / 2 = half := by omega
    have hbit : ((2 * half + 1) % 2 != 0) = true := by simp
    cases roundBit <;> cases stickyBit <;>
      simp only [ExtendedMantissa.accuracy, ExtendedMantissa.shiftRightOne, Located, hhalf, hbit,
        Bool.or_false, Bool.or_true] at h ⊢ <;>
      push_cast at h <;> grind

/-- Shifting a mantissa divides the number that it locates. -/
theorem Located.shiftRight {x : ℚ} {em : ExtendedMantissa}
    (h : Located x em.mantissa em.accuracy) (k : ℕ) :
    Located (x / 2 ^ k) (em >>> k).mantissa (em >>> k).accuracy := by
  induction k with
  | zero =>
    rw [pow_zero, div_one]
    exact h
  | succ k ih =>
    rw [pow_succ, ← div_div]
    exact ih.shiftRightOne

/-- A mantissa and its accuracy are kept as they are taken over. -/
theorem Located.ofMantissaAndAccuracy {x : ℚ} {m : ℕ} {accuracy : Accuracy}
    (h : Located x m accuracy) :
    Located x (ExtendedMantissa.ofMantissaAndAccuracy m accuracy).mantissa
      (ExtendedMantissa.ofMantissaAndAccuracy m accuracy).accuracy := by
  match accuracy, h with
  | .exact, h => exact h
  | .inexact .lt, h => exact h
  | .inexact .eq, h => exact h
  | .inexact .gt, h => exact h

/-! ## The nearest whole number -/

/-- A whole number is nearest to a number, and even if it is no nearer than its neighbour. -/
structure IsNearest (x : ℚ) (n : ℕ) : Prop where
  close : |x - n| ≤ 1 / 2
  even : |x - n| = 1 / 2 → n % 2 = 0

/-- Rounding a located number gives the whole number nearest to it. -/
theorem Located.isNearest {x : ℚ} {m : ℕ} {accuracy : Accuracy} (h : Located x m accuracy) :
    IsNearest x (accuracy.roundToNearestEven m) := by
  match accuracy, h with
  | .exact, h =>
    obtain rfl : x = m := h
    exact ⟨by simp [Accuracy.roundToNearestEven], by simp [Accuracy.roundToNearestEven]⟩
  | .inexact .lt, ⟨hlow, hhigh⟩ =>
    have habs : |x - m| < 1 / 2 := abs_lt.2 ⟨by linarith, by linarith⟩
    exact ⟨habs.le, fun htie => absurd htie habs.ne⟩
  | .inexact .eq, h =>
    obtain rfl : x = m + 1 / 2 := h
    obtain ⟨half, rfl | rfl⟩ := Nat.even_or_odd' m
    · have hround : Accuracy.roundToNearestEven (2 * half) (.inexact .eq) = 2 * half := by
        simp [Accuracy.roundToNearestEven]
      rw [hround]
      exact ⟨by norm_num [abs_of_pos], by simp⟩
    · have hround : Accuracy.roundToNearestEven (2 * half + 1) (.inexact .eq) = 2 * half + 1 + 1 := by
        simp [Accuracy.roundToNearestEven]
      rw [hround]
      refine ⟨?_, fun _ => by omega⟩
      push_cast
      rw [abs_le]
      constructor <;> linarith
  | .inexact .gt, ⟨hlow, hhigh⟩ =>
    have habs : |x - (m + 1 : ℕ)| < 1 / 2 := by
      push_cast
      exact abs_lt.2 ⟨by linarith, by linarith⟩
    exact ⟨habs.le, fun htie => absurd htie habs.ne⟩

/-- Rounding reaches an even number from half a unit below it. -/
theorem IsNearest.le_iff {x : ℚ} {n bound : ℕ} (h : IsNearest x n) (hbound : bound % 2 = 0) :
    bound ≤ n ↔ (bound : ℚ) - 1 / 2 ≤ x := by
  obtain ⟨hlow, hhigh⟩ := abs_le.1 h.close
  constructor
  · intro hle
    have hcast : (bound : ℚ) ≤ n := by exact_mod_cast hle
    linarith
  · intro hle
    by_contra hlt
    -- Half a unit below the bound the number below is as near, but odd
    have hnext : n + 1 ≤ bound := by omega
    have hcast : (n : ℚ) + 1 ≤ bound := by exact_mod_cast hnext
    have htie : |x - n| = 1 / 2 := by
      rw [abs_of_nonneg (by linarith)]
      linarith
    have hsame : bound = n + 1 := by
      have : (bound : ℚ) ≤ n + 1 := by linarith
      have : bound ≤ n + 1 := by exact_mod_cast this
      omega
    have := h.even htie
    omega

/-- The whole numbers nearest to two numbers have the order of these. -/
theorem IsNearest.mono {x y : ℚ} {m n : ℕ} (hx : IsNearest x m) (hy : IsNearest y n) (hxy : x ≤ y) :
    m ≤ n := by
  obtain ⟨hlow, hhigh⟩ := abs_le.1 hx.close
  obtain ⟨hlow', hhigh'⟩ := abs_le.1 hy.close
  by_contra hlt
  -- The two numbers are equal and lie in the middle of two neighbours, which are both even
  have hnext : n + 1 ≤ m := by omega
  have hcast : (n : ℚ) + 1 ≤ m := by exact_mod_cast hnext
  have hsame : m = n + 1 := by
    have : (m : ℚ) ≤ n + 1 := by linarith
    have : m ≤ n + 1 := by exact_mod_cast this
    omega
  have htie : |x - m| = 1 / 2 := by
    rw [abs_of_nonpos (by linarith)]
    linarith
  have htie' : |y - n| = 1 / 2 := by
    rw [abs_of_nonneg (by linarith)]
    linarith
  have := hx.even htie
  have := hy.even htie'
  omega

/-! ## The nearest number of a format -/

/-- A power of two, counted in units. -/
private theorem pow_mul_zpow (k : ℕ) (t : ℤ) : (2 : ℚ) ^ k * 2 ^ t = 2 ^ (t + k) := by
  rw [← zpow_natCast, ← zpow_add₀ (by norm_num), add_comm]

/-- The exponent at which a format stores numbers of the size of `x`. -/
structure Placed (spec : Format) (x : ℚ) (t : ℤ) : Prop where
  low : spec.minExponent ≤ t
  below : x < 2 ^ (t + spec.mantissaBits)
  leading : 2 ^ (t + spec.mantissaBitsWithoutImplicit) ≤ x ∨ t = spec.minExponent

/-- A positive mantissa is located by a number of as many bits. -/
private theorem Located.pow_le {x : ℚ} {m : ℕ} {accuracy : Accuracy} {e : ℤ} (hm : 0 < m)
    (h : Located (x / 2 ^ e) m accuracy) :
    2 ^ (totalExponent m e - 1) ≤ x ∧ x < 2 ^ totalExponent m e := by
  obtain ⟨hlow, hhigh⟩ := h.bounds
  have hunit : (0 : ℚ) < 2 ^ e := by positivity
  rw [le_div_iff₀ hunit] at hlow
  rw [div_lt_iff₀ hunit] at hhigh
  have hleading : ((2 ^ m.log2 : ℕ) : ℚ) ≤ m := by
    exact_mod_cast Nat.log2_self_le (Nat.ne_of_gt hm)
  have hnext : (m : ℚ) + 1 ≤ ((2 ^ (m.log2 + 1) : ℕ) : ℚ) := by
    exact_mod_cast Nat.lt_log2_self
  push_cast at hleading hnext
  unfold totalExponent
  constructor
  · have hexponent : (2 : ℚ) ^ ((m.log2 : ℤ) + 1 + e - 1) = 2 ^ m.log2 * 2 ^ e := by
      rw [pow_mul_zpow]
      congr 1
      omega
    rw [hexponent]
    exact le_trans (mul_le_mul_of_nonneg_right hleading hunit.le) hlow
  · have hexponent : (2 : ℚ) ^ ((m.log2 : ℤ) + 1 + e) = 2 ^ (m.log2 + 1) * 2 ^ e := by
      rw [pow_mul_zpow]
      push_cast
      rw [add_comm]
    rw [hexponent]
    exact lt_of_lt_of_le hhigh (mul_le_mul_of_nonneg_right hnext hunit.le)

/-- The target exponent of a mantissa is the exponent at which the number it locates is stored.  A
    mantissa of zero says nothing about the size of the number, so its exponent has to be low. -/
private theorem Located.placed {spec : Format} {x : ℚ} {m : ℕ} {accuracy : Accuracy} {e : ℤ}
    (h : Located (x / 2 ^ e) m accuracy) (hzero : m = 0 → e ≤ spec.minExponent) :
    Placed spec x (spec.targetExponent (totalExponent m e)) := by
  have hbits : (spec.mantissaBits : ℤ) = 1 + spec.mantissaBitsWithoutImplicit := by
    simp [Format.mantissaBits]
  unfold Format.targetExponent
  rcases Nat.eq_zero_or_pos m with rfl | hm
  · have hlow := hzero rfl
    have htotal : totalExponent 0 e = 1 + e := by simp [totalExponent]
    have hmax : max (totalExponent 0 e - spec.mantissaBits) spec.minExponent = spec.minExponent := by
      have := spec.hm
      omega
    have hsmall : x < 2 ^ e := by
      have := h.bounds.2
      rw [div_lt_iff₀ (by positivity)] at this
      simpa using this
    rw [hmax]
    refine ⟨le_refl _, lt_of_lt_of_le hsmall ?_, Or.inr rfl⟩
    exact zpow_le_zpow_right₀ (by norm_num) (by omega)
  · obtain ⟨hlow, hhigh⟩ := h.pow_le hm
    refine ⟨le_max_right _ _, lt_of_lt_of_le hhigh ?_, ?_⟩
    · exact zpow_le_zpow_right₀ (by norm_num) (by omega)
    · rcases le_total (totalExponent m e - spec.mantissaBits) spec.minExponent with hle | hle
      · exact Or.inr (max_eq_right hle)
      · left
        rw [max_eq_left hle]
        refine le_trans (le_of_eq ?_) hlow
        congr 1
        omega

/-- How a format stores `n` units of `2 ^ t`. -/
def Stored (spec : Format) (sign : Sign) (n : ℕ) (t : ℤ) : UnpackedFloat → Prop
  | .zero s => s = sign ∧ n = 0
  | .finite s m e _ => s = sign ∧ Canonical spec m e ∧ (m : ℚ) * 2 ^ e = n * 2 ^ t
  | _ => False

/-- A rounded number is at most the first that needs another bit. -/
private theorem Placed.nearest_le {spec : Format} {x : ℚ} {t : ℤ} {n : ℕ} (h : Placed spec x t)
    (hn : IsNearest (x / 2 ^ t) n) : n ≤ 2 ^ spec.mantissaBits := by
  have hunits : x / 2 ^ t < 2 ^ spec.mantissaBits := by
    rw [div_lt_iff₀ (by positivity), pow_mul_zpow]
    exact h.below
  have hclose := (abs_le.1 hn.close).1
  have hlt : (n : ℚ) < ((2 ^ spec.mantissaBits + 1 : ℕ) : ℚ) := by
    push_cast
    linarith
  have : n < 2 ^ spec.mantissaBits + 1 := by exact_mod_cast hlt
  omega

/-- A rounded number keeps its leading bit, if it has one. -/
private theorem Placed.le_nearest {spec : Format} {x : ℚ} {t : ℤ} {n : ℕ} (h : Placed spec x t)
    (hn : IsNearest (x / 2 ^ t) n) :
    2 ^ spec.mantissaBitsWithoutImplicit ≤ n ∨ t = spec.minExponent := by
  refine h.leading.imp_left fun hleading => ?_
  have hunits : 2 ^ spec.mantissaBitsWithoutImplicit ≤ x / 2 ^ t := by
    rw [le_div_iff₀ (by positivity), pow_mul_zpow]
    exact hleading
  have hclose := (abs_le.1 hn.close).2
  have hlt : ((2 ^ spec.mantissaBitsWithoutImplicit : ℕ) : ℚ) < ((n + 1 : ℕ) : ℚ) := by
    push_cast
    linarith
  have : 2 ^ spec.mantissaBitsWithoutImplicit < n + 1 := by exact_mod_cast hlt
  omega

/-- The first shift of rounding moves the exponent to its target and keeps the number located. -/
private theorem Located.shiftToTargetExponent {spec : Format} {x : ℚ} {m : ℕ} {accuracy : Accuracy}
    {e : ℤ} (h : Located (x / 2 ^ e) m accuracy)
    (hready : e ≤ spec.targetExponent (totalExponent m e)) :
    ∃ em, shiftToTargetExponent spec m e accuracy =
        (em, spec.targetExponent (totalExponent m e)) ∧
      Located (x / 2 ^ spec.targetExponent (totalExponent m e)) em.mantissa em.accuracy := by
  generalize htarget : spec.targetExponent (totalExponent m e) = t at *
  obtain ⟨k, hk⟩ := Int.le.dest hready
  have hamount : (t - e).toNat = k := by omega
  refine ⟨ExtendedMantissa.ofMantissaAndAccuracy m accuracy >>> k, ?_, ?_⟩
  · unfold UnpackedFloat.shiftToTargetExponent shiftToExponent
    simp only [htarget, hamount, hk]
  · have hscale : x / 2 ^ t = x / 2 ^ e / 2 ^ k := by
      rw [← hk, zpow_add₀ (by norm_num), zpow_natCast, div_div]
    rw [hscale]
    exact h.ofMantissaAndAccuracy.shiftRight k

/-- The last shift of rounding stores a mantissa that fits, or carries its leading bit. -/
private theorem stored_shifted {spec : Format} (sign : Sign) {n : ℕ} {t : ℤ}
    (hfits : n ≤ 2 ^ spec.mantissaBits) (hlow : spec.minExponent ≤ t)
    (hleading : 2 ^ spec.mantissaBitsWithoutImplicit ≤ n ∨ t = spec.minExponent) :
    Stored spec sign n t
      (if h : (shiftToTargetExponent spec n t .exact).1.mantissa = 0 then .zero sign
        else .finite sign (shiftToTargetExponent spec n t .exact).1.mantissa
          (shiftToTargetExponent spec n t .exact).2 (Nat.pos_of_ne_zero h)) := by
  have hbits : spec.mantissaBits = 1 + spec.mantissaBitsWithoutImplicit := rfl
  rcases Nat.lt_or_eq_of_le hfits with hlt | rfl
  · -- The mantissa fits, and nothing is shifted
    have htarget : spec.targetExponent (totalExponent n t) ≤ t := by
      have hlog : n.log2 + 1 ≤ spec.mantissaBits := by
        rcases Nat.eq_zero_or_pos n with rfl | hpos
        · simp [hbits]
        · exact (Nat.log2_lt (Nat.ne_of_gt hpos)).2 hlt
      unfold Format.targetExponent totalExponent
      omega
    simp only [shiftToTargetExponent_of_le htarget]
    split
    · rename_i hzero
      exact ⟨rfl, hzero⟩
    · exact ⟨rfl, ⟨hlt, hlow, hleading⟩, rfl⟩
  · -- The carry out of the mantissa leaves a power of two, which is halved
    have htarget : spec.targetExponent (totalExponent (2 ^ spec.mantissaBits) t) = t + 1 := by
      unfold Format.targetExponent totalExponent
      rw [Nat.log2_two_pow]
      omega
    have hshift : shiftToTargetExponent spec (2 ^ spec.mantissaBits) t .exact =
        ((ExtendedMantissa.mk (2 ^ spec.mantissaBits) false false).shiftRightOne, t + 1) := by
      have hamount : (t + 1 - t).toNat = 1 := by omega
      unfold shiftToTargetExponent shiftToExponent
      simp only [htarget, hamount]
      rfl
    have hhalf : 2 ^ spec.mantissaBits / 2 = 2 ^ spec.mantissaBitsWithoutImplicit := by
      rw [hbits, Nat.add_comm, Nat.pow_succ, Nat.mul_div_cancel _ (by decide)]
    have hpos : 0 < 2 ^ spec.mantissaBitsWithoutImplicit := Nat.two_pow_pos _
    simp only [hshift, ExtendedMantissa.shiftRightOne, hhalf, dif_neg (Nat.ne_of_gt hpos)]
    refine ⟨rfl, ⟨?_, by omega, Or.inl (Nat.le_refl _)⟩, ?_⟩
    · exact Nat.pow_lt_pow_right (by decide) (by omega)
    · push_cast
      rw [hbits, zpow_add₀ (by norm_num), pow_add]
      ring

/-- Rounding stores the whole number of units nearest to the number that is located. -/
theorem roundWithAccuracy_nearest {spec : Format} {x : ℚ} {m : ℕ} {accuracy : Accuracy} {e : ℤ}
    (sign : Sign) (h : Located (x / 2 ^ e) m accuracy)
    (hready : e ≤ spec.targetExponent (totalExponent m e))
    (hzero : m = 0 → e ≤ spec.minExponent) :
    ∃ n t, Placed spec x t ∧ IsNearest (x / 2 ^ t) n ∧
      Stored spec sign n t (roundWithAccuracy spec sign m e accuracy) := by
  obtain ⟨em, hfirst, hlocated⟩ := h.shiftToTargetExponent hready
  have hplaced := h.placed hzero
  have hnearest : IsNearest _ em.roundedMantissa := hlocated.isNearest
  refine ⟨em.roundedMantissa, _, hplaced, hnearest, ?_⟩
  unfold roundWithAccuracy
  simp only [hfirst]
  exact stored_shifted sign (hplaced.nearest_le hnearest) hplaced.low (hplaced.le_nearest hnearest)

/-- Rounding a mantissa without more to it stores the number of units nearest to it. -/
theorem round_nearest (spec : Format) (sign : Sign) {m : ℕ} (hm : 0 < m) (e : ℤ) :
    ∃ n t, Placed spec (m * 2 ^ e) t ∧ IsNearest (m * 2 ^ e / 2 ^ t) n ∧
      Stored spec sign n t (UnpackedFloat.round spec sign m e) := by
  -- The exponent is first decreased, so that none but zero bits are shifted in
  generalize hk : (e - spec.targetExponent (totalExponent m e)).toNat = k
  have htotal : totalExponent (m * 2 ^ k) (e - k) = totalExponent m e := by
    unfold totalExponent
    rw [log2_mul_two_pow hm]
    omega
  have hlocated : Located (m * 2 ^ e / 2 ^ (e - k)) (m * 2 ^ k) .exact := by
    show (m : ℚ) * 2 ^ e / 2 ^ (e - k) = ((m * 2 ^ k : ℕ) : ℚ)
    rw [zpow_sub₀ (by norm_num), zpow_natCast]
    push_cast
    field_simp
  have hround : UnpackedFloat.round spec sign m e =
      roundWithAccuracy spec sign (m * 2 ^ k) (e - k) .exact := by
    unfold UnpackedFloat.round decreaseExponent
    simp only [hk, Nat.shiftLeft_eq]
  rw [hround]
  refine roundWithAccuracy_nearest sign hlocated (by rw [htotal]; omega) fun hzero => ?_
  exact absurd hzero (Nat.ne_of_gt (Nat.mul_pos hm (Nat.two_pow_pos k)))

/-! ## Numbers with a sign -/

/-- What a format stores for a number: the whole number of units nearest to its magnitude, with its
    sign. -/
def StoredFor (spec : Format) (v : ℚ) (u : UnpackedFloat) : Prop :=
  ∃ (sign : Sign) (x : ℚ) (n : ℕ) (t : ℤ), v = (sign.apply 1 : ℤ) * x ∧ 0 ≤ x ∧ Placed spec x t ∧
    IsNearest (x / 2 ^ t) n ∧ Stored spec sign n t u

/-- Zero is placed at the lowest exponent. -/
theorem placed_zero (spec : Format) : Placed spec 0 spec.minExponent :=
  ⟨le_refl _, by positivity, Or.inr rfl⟩

theorem isNearest_zero (t : ℤ) : IsNearest (0 / 2 ^ t) 0 := ⟨by simp, by simp⟩

/-- A zero is stored for zero, whatever its sign. -/
theorem storedFor_zero (spec : Format) (sign : Sign) : StoredFor spec 0 (.zero sign) :=
  ⟨sign, 0, 0, spec.minExponent, by rw [mul_zero], le_refl 0, placed_zero spec, isNearest_zero _,
    rfl, rfl⟩

/-- A decoded number is stored for its value in any format. -/
theorem storedFor_reround (spec : Format) {u : UnpackedFloat} {v : ℚ} (h : decodedValue? u = some v) :
    StoredFor spec v (reround spec u) := by
  rcases decodedValue?_eq_some h with ⟨sign, rfl, rfl⟩ | ⟨sign, m, e, hm, rfl, rfl⟩
  · exact storedFor_zero spec sign
  · obtain ⟨n, t, hplaced, hnearest, hstored⟩ := round_nearest spec sign hm e
    exact ⟨sign, _, n, t, apply_eq_mul sign m e, (magnitude_pos hm e).le, hplaced, hnearest, hstored⟩

/-! ## Bounds -/

/-- A number that is stored with a lower exponent lies half a unit and more below a bound of full
    length, and so does what it is rounded to. -/
private theorem Placed.lt_of_lt {spec : Format} {x : ℚ} {t u : ℤ} {n bound : ℕ}
    (h : Placed spec x t) (hn : IsNearest (x / 2 ^ t) n)
    (hlow : 2 ^ spec.mantissaBitsWithoutImplicit < bound) (htu : t < u) :
    x < ((bound : ℚ) - 1 / 2) * 2 ^ u ∧ (n : ℚ) * 2 ^ t < bound * 2 ^ u := by
  have hbits : spec.mantissaBits = 1 + spec.mantissaBitsWithoutImplicit := rfl
  have hbound : (2 : ℚ) ^ spec.mantissaBitsWithoutImplicit + 1 ≤ bound := by exact_mod_cast hlow
  have hscale : (2 : ℚ) ^ (t + spec.mantissaBits) ≤
      2 ^ spec.mantissaBitsWithoutImplicit * 2 ^ u := by
    rw [pow_mul_zpow]
    exact zpow_le_zpow_right₀ (by norm_num) (by omega)
  constructor
  · calc x < 2 ^ (t + spec.mantissaBits) := h.below
      _ ≤ 2 ^ spec.mantissaBitsWithoutImplicit * 2 ^ u := hscale
      _ ≤ ((bound : ℚ) - 1 / 2) * 2 ^ u := by gcongr; linarith
  · calc (n : ℚ) * 2 ^ t ≤ 2 ^ spec.mantissaBits * 2 ^ t := by
          gcongr
          exact_mod_cast h.nearest_le hn
      _ = 2 ^ (t + spec.mantissaBits) := pow_mul_zpow _ _
      _ ≤ 2 ^ spec.mantissaBitsWithoutImplicit * 2 ^ u := hscale
      _ < bound * 2 ^ u := by gcongr; linarith

/-- A number that is stored with a higher exponent is not below a bound that fits, and neither is what
    it is rounded to. -/
private theorem Placed.le_of_gt {spec : Format} {x : ℚ} {t u : ℤ} {n bound : ℕ}
    (h : Placed spec x t) (hn : IsNearest (x / 2 ^ t) n)
    (hhigh : bound ≤ 2 ^ spec.mantissaBits) (hu : spec.minExponent ≤ u) (hut : u < t) :
    (bound : ℚ) * 2 ^ u ≤ x ∧ (bound : ℚ) * 2 ^ u ≤ n * 2 ^ t := by
  have hbits : spec.mantissaBits = 1 + spec.mantissaBitsWithoutImplicit := rfl
  have hbound : (bound : ℚ) ≤ 2 ^ spec.mantissaBits := by exact_mod_cast hhigh
  have hleading : 2 ^ (t + spec.mantissaBitsWithoutImplicit) ≤ x :=
    h.leading.resolve_right (by omega)
  have hkept : 2 ^ spec.mantissaBitsWithoutImplicit ≤ n :=
    (h.le_nearest hn).resolve_right (by omega)
  have hscale : (bound : ℚ) * 2 ^ u ≤ 2 ^ (t + spec.mantissaBitsWithoutImplicit) :=
    calc (bound : ℚ) * 2 ^ u ≤ 2 ^ spec.mantissaBits * 2 ^ u := by gcongr
      _ = 2 ^ (u + spec.mantissaBits) := pow_mul_zpow _ _
      _ ≤ 2 ^ (t + spec.mantissaBitsWithoutImplicit) :=
          zpow_le_zpow_right₀ (by norm_num) (by omega)
  refine ⟨hscale.trans hleading, ?_⟩
  calc (bound : ℚ) * 2 ^ u ≤ 2 ^ (t + spec.mantissaBitsWithoutImplicit) := hscale
    _ = 2 ^ spec.mantissaBitsWithoutImplicit * 2 ^ t := (pow_mul_zpow _ _).symm
    _ ≤ n * 2 ^ t := by
        gcongr
        exact_mod_cast hkept

/-- Rounding reaches an even bound of full length from half a unit below it. -/
theorem Placed.le_iff {spec : Format} {x : ℚ} {t : ℤ} {n : ℕ} (h : Placed spec x t)
    (hn : IsNearest (x / 2 ^ t) n) (bound : ℕ) (u : ℤ) (heven : bound % 2 = 0)
    (hlow : 2 ^ spec.mantissaBitsWithoutImplicit < bound) (hhigh : bound ≤ 2 ^ spec.mantissaBits)
    (hu : spec.minExponent ≤ u) :
    (bound : ℚ) * 2 ^ u ≤ n * 2 ^ t ↔ ((bound : ℚ) - 1 / 2) * 2 ^ u ≤ x := by
  have hunit : (0 : ℚ) < 2 ^ u := by positivity
  -- Only a number that is stored in the units of the bound can be rounded across it
  rcases lt_trichotomy t u with hlt | rfl | hgt
  · obtain ⟨hx, hrounded⟩ := h.lt_of_lt hn hlow hlt
    exact iff_of_false (not_le.2 hrounded) (not_le.2 hx)
  · rw [mul_le_mul_iff_left₀ hunit, ← le_div_iff₀ hunit, Nat.cast_le]
    exact hn.le_iff heven
  · obtain ⟨hx, hrounded⟩ := h.le_of_gt hn hhigh hu hgt
    have hbelow : ((bound : ℚ) - 1 / 2) * 2 ^ u ≤ bound * 2 ^ u := by gcongr; linarith
    exact iff_of_true hrounded (hbelow.trans hx)

/-- What two numbers are rounded to has the order of these. -/
theorem Placed.mono {spec : Format} {x y : ℚ} {t u : ℤ} {m n : ℕ} (hx : Placed spec x t)
    (hm : IsNearest (x / 2 ^ t) m) (hy : Placed spec y u) (hn : IsNearest (y / 2 ^ u) n)
    (hxy : x ≤ y) : (m : ℚ) * 2 ^ t ≤ n * 2 ^ u := by
  rcases lt_trichotomy t u with hlt | rfl | hgt
  · exact (hy.le_of_gt hn (hx.nearest_le hm) hx.low hlt).2
  · have hnearest : m ≤ n := hm.mono hn (by gcongr)
    gcongr
  · -- The smaller number is not stored with the higher exponent
    have hlarge := (hx.le_of_gt hm (le_refl _) hy.low hgt).1
    push_cast at hlarge
    rw [pow_mul_zpow] at hlarge
    exact absurd hy.below (not_lt.2 (hlarge.trans hxy))

/-! ## Packing -/

/-- The first power of two beyond a format. -/
def overflow (spec : Format) : ℚ := 2 ^ (2 ^ (spec.exponentBits - 1))

theorem overflow_pos (spec : Format) : 0 < overflow spec := by
  unfold overflow
  positivity

/-- A canonical number is below the first power of two beyond its format exactly when its exponent
    is in range. -/
private theorem Canonical.lt_overflow_iff {spec : Format} {m : ℕ} {e : ℤ} (h : Canonical spec m e)
    (hspec : 2 ≤ spec.exponentBits) :
    (m : ℚ) * 2 ^ e < overflow spec ↔
      e + spec.exponentBias + spec.mantissaBitsWithoutImplicit + 1 <
        (2 ^ spec.exponentBits : ℕ) := by
  have hbits : spec.mantissaBits = 1 + spec.mantissaBitsWithoutImplicit := rfl
  -- Half the range of the exponent field lies above zero
  generalize hhalf : 2 ^ (spec.exponentBits - 1) = half
  have hfield : 2 ^ spec.exponentBits = 2 * half := by
    rw [← hhalf, ← Nat.pow_succ']
    congr 1
    omega
  have hbias : spec.exponentBias = half - 1 := by rw [Format.exponentBias, hhalf]
  have htwo : 2 ≤ half := by
    rw [← hhalf]
    exact Nat.le_self_pow (by omega) 2
  have hmin : spec.minExponent = 3 - half - spec.mantissaBits := by
    rw [Format.minExponent, ← hhalf]
    push_cast
    rfl
  have hoverflow : overflow spec = 2 ^ (half : ℤ) := by rw [overflow, hhalf, zpow_natCast]
  rw [hfield, hoverflow]
  constructor
  · -- Beyond the range the leading bit alone is too large
    intro hlt
    by_contra hrange
    have hleading := h.leading.resolve_right (by omega)
    have hlarge : (2 : ℚ) ^ (half : ℤ) ≤ m * 2 ^ e :=
      calc (2 : ℚ) ^ (half : ℤ) ≤ 2 ^ (e + spec.mantissaBitsWithoutImplicit) :=
            zpow_le_zpow_right₀ (by norm_num) (by omega)
        _ = 2 ^ spec.mantissaBitsWithoutImplicit * 2 ^ e := (pow_mul_zpow _ _).symm
        _ ≤ m * 2 ^ e := by
            gcongr
            exact_mod_cast hleading
    exact absurd hlt (not_lt.2 hlarge)
  · intro hrange
    calc (m : ℚ) * 2 ^ e < 2 ^ spec.mantissaBits * 2 ^ e := by
          gcongr
          exact_mod_cast h.mantissa_lt
      _ = 2 ^ (e + spec.mantissaBits) := pow_mul_zpow _ _
      _ ≤ 2 ^ (half : ℤ) := zpow_le_zpow_right₀ (by norm_num) (by omega)

/-- What is unpacked is below the first power of two beyond the format. -/
theorem lt_overflow_of_unpack {spec : Format} {bits : BitVec spec.numBits} {sign : Sign} {m : ℕ}
    {e : ℤ} {hm : 0 < m} (h : unpack spec bits = .finite sign m e hm)
    (hspec : 2 ≤ spec.exponentBits) : (m : ℚ) * 2 ^ e < overflow spec := by
  have hcanonical := canonical_unpack h
  have hagain := unpack_pack_unpack bits hspec
  rw [h, unpack_pack_of_canonical hcanonical hm hspec] at hagain
  rw [hcanonical.lt_overflow_iff hspec]
  -- Beyond the format it would have become an infinity
  by_contra hrange
  rw [if_neg hrange] at hagain
  exact absurd hagain (by simp)

/-- What rounding stores survives packing below the first power of two beyond the format, and from
    there on becomes an infinity. -/
theorem Stored.unpack_pack {spec : Format} {sign : Sign} {n : ℕ} {t : ℤ} {u : UnpackedFloat}
    (h : Stored spec sign n t u) (hspec : 2 ≤ spec.exponentBits) :
    unpack spec (pack spec u) =
      if (n : ℚ) * 2 ^ t < overflow spec then u else .infinity sign := by
  cases u with
  | notANumber => exact absurd h id
  | infinity s => exact absurd h id
  | zero s =>
    obtain ⟨rfl, rfl⟩ := h
    rw [Nat.cast_zero, zero_mul, if_pos (overflow_pos spec)]
    exact unpack_packedZero
  | finite s m e hm =>
    obtain ⟨rfl, hcanonical, hvalue⟩ := h
    rw [unpack_pack_of_canonical hcanonical hm hspec, ← hvalue]
    simp only [hcanonical.lt_overflow_iff hspec]

/-- What rounding stores is finite. -/
theorem Stored.isFinite {spec : Format} {sign : Sign} {n : ℕ} {t : ℤ} {u : UnpackedFloat}
    (h : Stored spec sign n t u) : u.isFinite := by
  cases u with
  | notANumber => exact absurd h id
  | infinity s => exact absurd h id
  | zero s => rfl
  | finite s m e hm => rfl

/-- What rounding stores is finite in its format below the first power of two beyond it. -/
theorem Stored.isFinite_unpack_pack_iff {spec : Format} {sign : Sign} {n : ℕ} {t : ℤ}
    {u : UnpackedFloat} (h : Stored spec sign n t u) (hspec : 2 ≤ spec.exponentBits) :
    (unpack spec (pack spec u)).isFinite ↔ (n : ℚ) * 2 ^ t < overflow spec := by
  rw [h.unpack_pack hspec]
  split
  · rename_i hlt
    exact iff_of_true h.isFinite hlt
  · rename_i hge
    exact iff_of_false Bool.false_ne_true hge

/-- What rounding stores has the value of its units, signs apart. -/
theorem Stored.exists_value {spec : Format} {sign : Sign} {n : ℕ} {t : ℤ} {u : UnpackedFloat}
    (h : Stored spec sign n t u) : ∃ v, decodedValue? u = some v ∧ |v| = n * 2 ^ t := by
  cases u with
  | notANumber => exact absurd h id
  | infinity s => exact absurd h id
  | zero s =>
    obtain ⟨rfl, rfl⟩ := h
    exact ⟨0, rfl, by simp⟩
  | finite s m e hm =>
    obtain ⟨rfl, -, hvalue⟩ := h
    exact ⟨_, rfl, by rw [abs_apply, hvalue]⟩

end Stencil.Precision
