import Stencil.Proofs.Precision.Closeness
import Stencil.Proofs.Precision.Order

/-!
# Rounding keeps the order

A number that is too large for its format is rounded to an infinity, which has no value.  For the
order it is enough to know that an infinity lies beyond all numbers of its format, so it is given a
rank: the first power of two that the format does not have.  In ranks an overflow is a cut at that
power, stored numbers are compared as their ranks are, and rounding is one relation on rational
numbers that keeps the order, whatever overflows or vanishes.

## Key results

- `compare_rank`: stored numbers are compared as their ranks are
- `Rounded.mono`: rounding keeps the order of two numbers
- `rank?_narrow` / `rank?_div`: narrowing and division round in this sense
- `le_iff_rank` / `beq_iff_rank`: the comparisons of single precision
- `RoundedTwice.le` / `RoundedTwice.beq`: two roundings keep the order, and equal numbers equal
-/

namespace Stencil.Precision

open Float.Model (Format UnpackedFloat)
open Float.Model.UnpackedFloat

/-! ## Ranks -/

/-- The rank of a decoded number: its value, or the first power of two beyond the format with the sign
    of an infinity.  What is not a number has none. -/
def rank? (spec : Format) : UnpackedFloat → Option ℚ
  | .infinity sign => some ((sign.apply 1 : ℤ) * overflow spec)
  | u => decodedValue? u

/-- A number with a value has the value as its rank. -/
theorem rank?_of_value {spec : Format} {u : UnpackedFloat} {v : ℚ} (h : decodedValue? u = some v) :
    rank? spec u = some v := by
  cases u with
  | infinity sign => simp [decodedValue?] at h
  | _ => exact h

/-- A number with a rank is an infinity, or has the rank as its value. -/
theorem rank?_cases {spec : Format} {u : UnpackedFloat} {a : ℚ} (h : rank? spec u = some a) :
    (∃ sign, u = .infinity sign ∧ a = (sign.apply 1 : ℤ) * overflow spec) ∨
      decodedValue? u = some a := by
  cases u with
  | infinity sign => exact Or.inl ⟨sign, rfl, (Option.some.inj h).symm⟩
  | _ => exact Or.inr h

/-- What is unpacked has a value below the rank of infinity. -/
private theorem abs_lt_overflow {spec : Format} {bits : BitVec spec.numBits} {v : ℚ}
    (h : decodedValue? (unpack spec bits) = some v) (hspec : 2 ≤ spec.exponentBits) :
    |v| < overflow spec := by
  rcases decodedValue?_eq_some h with ⟨sign, hu, rfl⟩ | ⟨sign, m, e, hm, hu, rfl⟩
  · rw [abs_zero]
    exact overflow_pos spec
  · rw [abs_apply]
    exact lt_overflow_of_unpack hu hspec

/-- A number with a value is compared with an infinity by the sign of the infinity. -/
private theorem compare_infinity {u : UnpackedFloat} {v : ℚ} (h : decodedValue? u = some v)
    (sign : Sign) :
    (UnpackedFloat.infinity sign).compare u = some (compare sign (-sign)) ∧
      u.compare (.infinity sign) = some (compare (-sign) sign) := by
  rcases decodedValue?_eq_some h with ⟨s, rfl, -⟩ | ⟨s, m, e, hm, rfl, -⟩
  · cases sign <;> exact ⟨rfl, rfl⟩
  · cases sign <;> cases s <;> exact ⟨rfl, rfl⟩

/-- What is unpacked is compared as the ranks are. -/
theorem compare_rank {spec : Format} {a b : BitVec spec.numBits} {x y : ℚ}
    (hspec : 2 ≤ spec.exponentBits) (ha : rank? spec (unpack spec a) = some x)
    (hb : rank? spec (unpack spec b) = some y) :
    (unpack spec a).compare (unpack spec b) = some (compare x y) := by
  have hpos := overflow_pos spec
  -- It is enough that the answer of the comparison fits the ranks
  have hsome : ∀ o : Ordering, o.Compares x y → some o = some (compare x y) :=
    fun o ho => congrArg some ((compare_iff x y).2 ho).symm
  rcases rank?_cases ha with ⟨s₁, hu₁, hx⟩ | hx <;> rcases rank?_cases hb with ⟨s₂, hu₂, hy⟩ | hy
  · rw [hu₁, hu₂]
    cases s₁ <;> cases s₂ <;> simp only [Sign.apply] at hx hy <;> push_cast at hx hy
    · exact hsome .eq (hx.trans hy.symm)
    · exact hsome .lt (show x < y by linarith)
    · exact hsome .gt (show y < x by linarith)
    · exact hsome .eq (hx.trans hy.symm)
  · -- The other number lies between the two infinities
    obtain ⟨hlow, hhigh⟩ := abs_lt.1 (abs_lt_overflow hy hspec)
    rw [hu₁, (compare_infinity hy s₁).1]
    cases s₁ <;> simp only [Sign.apply] at hx <;> push_cast at hx
    · exact hsome .lt (show x < y by linarith)
    · exact hsome .gt (show y < x by linarith)
  · obtain ⟨hlow, hhigh⟩ := abs_lt.1 (abs_lt_overflow hx hspec)
    rw [hu₂, (compare_infinity hx s₂).2]
    cases s₂ <;> simp only [Sign.apply] at hy <;> push_cast at hy
    · exact hsome .gt (show y < x by linarith)
    · exact hsome .lt (show x < y by linarith)
  · exact compare_unpack hx hy

/-! ## Rounding -/

/-- A magnitude is rounded to the nearest number of units, cut off where the format ends. -/
inductive RoundedMagnitude (spec : Format) : ℚ → ℚ → Prop where
  | intro {x : ℚ} {n : ℕ} {t : ℤ} (hx : 0 ≤ x) (hplaced : Placed spec x t)
      (hnearest : IsNearest (x / 2 ^ t) n) :
      RoundedMagnitude spec x (min ((n : ℚ) * 2 ^ t) (overflow spec))

namespace RoundedMagnitude

variable {spec : Format} {x y a b : ℚ}

theorem nonneg (h : RoundedMagnitude spec x a) : 0 ≤ x ∧ 0 ≤ a := by
  obtain ⟨hx, hplaced, hnearest⟩ := h
  exact ⟨hx, le_min (by positivity) (overflow_pos spec).le⟩

/-- Magnitudes are rounded in their order. -/
theorem mono (hx : RoundedMagnitude spec x a) (hy : RoundedMagnitude spec y b) (hxy : x ≤ y) :
    a ≤ b := by
  obtain ⟨-, hplaced, hnearest⟩ := hx
  obtain ⟨-, hplaced', hnearest'⟩ := hy
  exact min_le_min_right _ (hplaced.mono hnearest hplaced' hnearest' hxy)

theorem zero (spec : Format) : RoundedMagnitude spec 0 0 := by
  have hrounded := intro (le_refl 0) (placed_zero spec) (isNearest_zero _)
  rwa [Nat.cast_zero, zero_mul, min_eq_left (overflow_pos spec).le] at hrounded

end RoundedMagnitude

/-- A number is rounded to a rank: its magnitude is, and keeps the sign. -/
inductive Rounded (spec : Format) : ℚ → ℚ → Prop where
  | intro (sign : Sign) {x a : ℚ} (h : RoundedMagnitude spec x a) :
      Rounded spec ((sign.apply 1 : ℤ) * x) ((sign.apply 1 : ℤ) * a)

/-- Zero is rounded to zero. -/
theorem Rounded.zero (spec : Format) : Rounded spec 0 0 := by
  have hrounded := Rounded.intro .positive (RoundedMagnitude.zero spec)
  rwa [mul_zero] at hrounded

/-- Rounding keeps the order of two numbers. -/
theorem Rounded.mono {spec : Format} {x y a b : ℚ} (hx : Rounded spec x a) (hy : Rounded spec y b)
    (hxy : x ≤ y) : a ≤ b := by
  obtain ⟨s₁, hx⟩ := hx
  obtain ⟨s₂, hy⟩ := hy
  rename_i x a y b
  obtain ⟨hx₀, ha₀⟩ := hx.nonneg
  obtain ⟨hy₀, hb₀⟩ := hy.nonneg
  cases s₁ <;> cases s₂ <;> simp only [Sign.apply] at hxy ⊢ <;> push_cast at hxy ⊢
  · -- Below zero the magnitudes have the other order
    have := hy.mono hx (by linarith)
    linarith
  · linarith
  · -- Only zeros have this order
    have := hx.mono (RoundedMagnitude.zero spec) (by linarith)
    have := hy.mono (RoundedMagnitude.zero spec) (by linarith)
    linarith
  · have := hx.mono hy (by linarith)
    linarith

/-- What is stored for a number has the rank to which the number is rounded. -/
theorem StoredFor.exists_rank {spec : Format} {x : ℚ} {u : UnpackedFloat} (h : StoredFor spec x u)
    (hspec : 2 ≤ spec.exponentBits) :
    ∃ a, rank? spec (unpack spec (pack spec u)) = some a ∧ Rounded spec x a := by
  obtain ⟨sign, x, n, t, rfl, hx, hplaced, hnearest, hstored⟩ := h
  refine ⟨_, ?_, .intro sign (.intro hx hplaced hnearest)⟩
  rw [hstored.unpack_pack hspec]
  split
  · rename_i hlt
    rw [min_eq_left hlt.le]
    exact rank?_of_value hstored.value_eq
  · rename_i hge
    rw [min_eq_right (not_lt.1 hge)]
    rfl

/-! ## Narrowing -/

/-- The rank of an infinity of double precision is rounded to that of one of single precision. -/
private theorem roundedMagnitude_overflow :
    RoundedMagnitude .binary32 (overflow .binary64) (overflow .binary32) := by
  have hwide : overflow .binary64 = 2 ^ (1024 : ℤ) := rfl
  have hnarrow : overflow .binary32 = 2 ^ (128 : ℤ) := rfl
  have hunits : (2 : ℚ) ^ (1024 : ℤ) = (2 ^ 23 : ℕ) * 2 ^ (1001 : ℤ) := by
    rw [Nat.cast_pow, Nat.cast_ofNat, ← zpow_natCast, ← zpow_add₀ (by norm_num)]
    congr 1
  have hplaced : Placed .binary32 (2 ^ (1024 : ℤ)) 1001 := by
    refine ⟨by decide, ?_, Or.inl ?_⟩
    · exact zpow_lt_zpow_right₀ (by norm_num) (by decide)
    · exact zpow_le_zpow_right₀ (by norm_num) (by decide)
  have hnearest : IsNearest ((2 : ℚ) ^ (1024 : ℤ) / 2 ^ (1001 : ℤ)) (2 ^ 23) := by
    rw [hunits, mul_div_cancel_right₀ _ (by positivity)]
    exact ⟨by simp, by simp⟩
  have hrounded := RoundedMagnitude.intro (by positivity) hplaced hnearest
  have hcut : (2 : ℚ) ^ (128 : ℤ) ≤ 2 ^ (1024 : ℤ) := zpow_le_zpow_right₀ (by norm_num) (by norm_num)
  rwa [← hunits, hnarrow, min_eq_right hcut, ← hwide, ← hnarrow] at hrounded

/-- Narrowing rounds to single precision, infinities included. -/
theorem rank?_narrow {y : Float} {x : ℚ} (h : rank? .binary64 y.toModel.unpack = some x) :
    ∃ a, rank? .binary32 (narrow y).toModel.unpack = some a ∧ Rounded .binary32 x a := by
  have hnarrow : (narrow y).toModel.unpack =
      unpack .binary32 (pack .binary32 (reround .binary32 y.toModel.unpack)) := rfl
  rw [hnarrow]
  rcases rank?_cases h with ⟨sign, hu, rfl⟩ | hvalue
  · refine ⟨_, ?_, .intro sign roundedMagnitude_overflow⟩
    rw [hu]
    show rank? .binary32 (unpack .binary32 (packedInfinity .binary32 sign)) = _
    rw [unpack_packedInfinity]
    rfl
  · exact (storedFor_reround .binary32 hvalue).exists_rank (by decide)

/-! ## Division -/

/-- Division by a number other than zero rounds the quotient to double precision. -/
theorem rank?_div {x d : Float} {a v : ℚ} (hx : wideValue? x = some a) (hd : wideValue? d = some v)
    (hv : v ≠ 0) :
    ∃ q, rank? .binary64 (x / d).toModel.unpack = some q ∧ Rounded .binary64 (a / v) q :=
  (storedFor_div .binary64 hx hd hv).exists_rank (by decide)

/-! ## Comparisons -/

/-- Numbers of single precision are compared as their ranks are. -/
theorem le_iff_rank {x y : Float32} {a b : ℚ} (hx : rank? .binary32 x.toModel.unpack = some a)
    (hy : rank? .binary32 y.toModel.unpack = some b) : x ≤ y ↔ a ≤ b := by
  have hcompare : x.toModel.unpack.compare y.toModel.unpack = some (compare a b) :=
    compare_rank (by decide) hx hy
  have hle : x ≤ y ↔ x.toModel.unpack.le y.toModel.unpack := decide_eq_true_iff
  rw [hle, UnpackedFloat.le, hcompare, Option.any_some, ← Ordering.ne_gt_iff_isLE]
  exact compare_le_iff_le

/-- Numbers of single precision are equal when their ranks are. -/
theorem beq_iff_rank {x y : Float32} {a b : ℚ} (hx : rank? .binary32 x.toModel.unpack = some a)
    (hy : rank? .binary32 y.toModel.unpack = some b) : x == y ↔ a = b := by
  have hcompare : x.toModel.unpack.compare y.toModel.unpack = some (compare a b) :=
    compare_rank (by decide) hx hy
  show (x.toModel.unpack.compare y.toModel.unpack == some .eq) = true ↔ a = b
  rw [hcompare, ← compare_eq_iff_eq]
  simp

/-! ## Two roundings -/

/-- A number of single precision comes out when a rational number is rounded to double precision and
    then to single precision. -/
def RoundedTwice (x : ℚ) (r : Float32) : Prop :=
  ∃ q a, Rounded .binary64 x q ∧ Rounded .binary32 q a ∧ rank? .binary32 r.toModel.unpack = some a

/-- A weight that is divided in double precision and narrowed is the quotient, rounded twice. -/
theorem roundedTwice_narrow_div {w : Float32} {d : Float} {x v : ℚ} (hw : value? w = some x)
    (hd : wideValue? d = some v) (hv : v ≠ 0) : RoundedTwice (x / v) (narrow (widen w / d)) := by
  obtain ⟨q, hq, hquotient⟩ := rank?_div (wideValue?_widen hw) hd hv
  obtain ⟨a, ha, hnarrow⟩ := rank?_narrow hq
  exact ⟨q, a, hquotient, hnarrow, ha⟩

theorem roundedTwice_zero : RoundedTwice 0 (ofInt 0) :=
  ⟨0, 0, Rounded.zero .binary64, Rounded.zero .binary32, rfl⟩

/-- Two roundings keep the order. -/
theorem RoundedTwice.le {x y : ℚ} {r s : Float32} (hr : RoundedTwice x r) (hs : RoundedTwice y s)
    (hxy : x ≤ y) : r ≤ s := by
  obtain ⟨p, a, hp, ha, hrank⟩ := hr
  obtain ⟨q, b, hq, hb, hrank'⟩ := hs
  rw [le_iff_rank hrank hrank']
  exact ha.mono hb (hp.mono hq hxy)

/-- Two roundings of the same number have the same result, signs of zero apart. -/
theorem RoundedTwice.beq {x : ℚ} {r s : Float32} (hr : RoundedTwice x r) (hs : RoundedTwice x s) :
    r == s := by
  have hle := hr.le hs (le_refl x)
  have hge := hs.le hr (le_refl x)
  obtain ⟨p, a, -, -, hrank⟩ := hr
  obtain ⟨q, b, -, -, hrank'⟩ := hs
  rw [le_iff_rank hrank hrank'] at hle
  rw [le_iff_rank hrank' hrank] at hge
  exact (beq_iff_rank hrank hrank').2 (le_antisymm hle hge)

end Stencil.Precision
