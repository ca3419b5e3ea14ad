import Stencil.Proofs.Precision.Neutral

/-!
# Sums of positive numbers

A sum of two positive numbers is a whole number of the units of its smaller exponent, and rounding
moves it by a small part of it only.  So it is never rounded to zero: it is positive again, if it
does not leave the format and become an infinity.  Both count as positive here, and so no bound on
the numbers or on how many they are is asked for.

## Key results

- `zero_lt_iff_positive` / `zeroWide_lt_iff_positive`: comparisons with zero
- `eq_zero_of_beq_zeroWide`: only zeros are equal to zero
- `positive_add`: a sum of positive numbers is positive
- `positive_foldl_add`: so is the sum of a list, from any positive number on
-/

namespace Stencil.Precision

open Float.Model (Format UnpackedFloat)
open Float.Model.UnpackedFloat

/-! ## Positive numbers -/

/-- A decoded number above zero, which may be infinite. -/
def Positive : UnpackedFloat → Prop
  | .finite sign _ _ _ => sign = .positive
  | .infinity sign => sign = .positive
  | _ => False

/-- A positive number is plus infinity or finite. -/
theorem Positive.cases {u : UnpackedFloat} (h : Positive u) :
    u = .infinity .positive ∨ ∃ m e hm, u = .finite .positive m e hm := by
  cases u with
  | notANumber => exact h.elim
  | infinity sign => exact Or.inl (congrArg _ h)
  | zero sign => exact h.elim
  | finite sign m e hm =>
    obtain rfl : sign = .positive := h
    exact Or.inr ⟨m, e, hm, rfl⟩

/-- A positive number is above a zero of either sign. -/
private theorem zero_lt_unpacked_iff (sign : Sign) (u : UnpackedFloat) :
    (UnpackedFloat.zero sign).lt u ↔ Positive u := by
  cases u with
  | notANumber => exact iff_of_false Bool.false_ne_true id
  | infinity s => cases s <;> simp [UnpackedFloat.lt, UnpackedFloat.compare, Positive]
  | zero s => exact iff_of_false Bool.false_ne_true id
  | finite s m e hm => cases s <;> simp [UnpackedFloat.lt, UnpackedFloat.compare, Positive]

/-- A number of single precision is above zero when it is positive. -/
theorem zero_lt_iff_positive (w : Float32) : ofInt 0 < w ↔ Positive w.toModel.unpack := by
  rw [← zero_lt_unpacked_iff .positive]
  exact decide_eq_true_iff

/-- A number of double precision is above zero when it is positive. -/
theorem zeroWide_lt_iff_positive (x : Float) : zeroWide < x ↔ Positive x.toModel.unpack := by
  rw [← zero_lt_unpacked_iff .positive]
  exact decide_eq_true_iff

/-- Only zeros are equal to zero. -/
theorem eq_zero_of_beq_zeroWide {x : Float} (h : x == zeroWide) :
    ∃ sign, x.toModel.unpack = .zero sign := by
  have hbeq : (x == zeroWide) = (x.toModel.unpack.compare (.zero .positive) == some .eq) := rfl
  rw [hbeq] at h
  cases hu : x.toModel.unpack with
  | notANumber => simp [hu, UnpackedFloat.compare] at h
  | infinity sign => cases sign <;> simp [hu, UnpackedFloat.compare] at h
  | zero sign => exact ⟨sign, rfl⟩
  | finite sign m e hm => cases sign <;> simp [hu, UnpackedFloat.compare] at h

/-- A positive number is not equal to zero. -/
theorem not_beq_zeroWide_of_positive {x : Float} (h : Positive x.toModel.unpack) :
    ¬ x == zeroWide := by
  intro hbeq
  obtain ⟨sign, hzero⟩ := eq_zero_of_beq_zeroWide hbeq
  rw [hzero] at h
  exact h

/-! ## Rounding -/

/-- Some units without a minus sign are stored as a positive number. -/
private theorem Stored.positive {spec : Format} {n : ℕ} {t : ℤ} {u : UnpackedFloat}
    (h : Stored spec .positive n t u) (hn : n ≠ 0) : Positive u := by
  cases u with
  | notANumber => exact h
  | infinity sign => exact h.elim
  | zero sign => exact hn h.2
  | finite sign m e hm => exact h.1

/-- A whole number of units that a format has is stored as a positive number, or as an infinity. -/
private theorem positive_pack_round {spec : Format} (hspec : 2 ≤ spec.exponentBits) {m : ℕ} {e : ℤ}
    (hm : 0 < m) (he : spec.minExponent ≤ e) :
    Positive (unpack spec (pack spec (UnpackedFloat.round spec .positive m e))) := by
  obtain ⟨n, t, hplaced, hnearest, hstored⟩ := round_nearest spec .positive hm e
  have hclose := hplaced.nearest_close_of_low hnearest he
  have hmagnitude := magnitude_pos hm e
  -- Rounding takes away a part of the number, and so leaves some of it
  have hpart : (m : ℚ) * 2 ^ e / 2 ^ spec.mantissaBits < m * 2 ^ e := by
    have htwo : (1 : ℚ) < 2 ^ spec.mantissaBits :=
      one_lt_pow₀ (by norm_num) (by simp [Format.mantissaBits])
    exact div_lt_self hmagnitude htwo
  have hne : n ≠ 0 := by
    rintro rfl
    rw [Nat.cast_zero, zero_mul, zero_sub, abs_neg, abs_of_pos hmagnitude] at hclose
    exact absurd hclose (not_le.2 hpart)
  rw [hstored.unpack_pack hspec]
  split
  · exact hstored.positive hne
  · rfl

/-- Widening keeps a number positive. -/
theorem positive_widen {w : Float32} (h : Positive w.toModel.unpack) :
    Positive (widen w).toModel.unpack := by
  have hwiden : (widen w).toModel.unpack =
      unpack .binary64 (pack .binary64 (reround .binary64 w.toModel.unpack)) := rfl
  have hinfinity : unpack .binary64 (pack .binary64 (.infinity .positive)) = .infinity .positive :=
    unpack_packedInfinity .binary64 .positive
  rcases h.cases with hu | ⟨m, e, hm, hu⟩
  · have hkept : reround .binary64 (.infinity .positive) = .infinity .positive := rfl
    rw [hwiden, hu, hkept, hinfinity]
    rfl
  · rw [unpack_widen_of_finite hu]
    rfl

/-! ## Sums -/

/-- Numbers counted in the units of the smaller exponent are added by their counts. -/
private theorem add_positive_finite (spec : Format) {m₁ m₂ : ℕ} (e₁ e₂ : ℤ) (h₁ : 0 < m₁)
    (h₂ : 0 < m₂) :
    ∃ m, 0 < m ∧ add spec (.finite .positive m₁ e₁ h₁) (.finite .positive m₂ e₂ h₂) =
      UnpackedFloat.round spec .positive m (min e₁ e₂) := by
  have hpos : 0 < m₁ <<< (e₁ - min e₁ e₂).toNat + m₂ <<< (e₂ - min e₁ e₂).toNat := by
    rw [Nat.shiftLeft_eq, Nat.shiftLeft_eq]
    positivity
  have hsum : (0 : ℤ) < (m₁ <<< (e₁ - min e₁ e₂).toNat : ℕ) +
      (m₂ <<< (e₂ - min e₁ e₂).toNat : ℕ) := by exact_mod_cast hpos
  refine ⟨_, hpos, ?_⟩
  show UnpackedFloat.normalize spec _ _ _ = _
  unfold UnpackedFloat.normalize
  simp only [Sign.apply]
  rw [compare_gt_iff_gt.2 hsum, ← Nat.cast_add, Int.toNat_natCast]

/-- A sum of two positive decoded numbers is stored as a positive one. -/
private theorem positive_unpacked_add {spec : Format} (hspec : 2 ≤ spec.exponentBits)
    {a b : BitVec spec.numBits} (ha : Positive (unpack spec a)) (hb : Positive (unpack spec b)) :
    Positive (unpack spec (pack spec (add spec (unpack spec a) (unpack spec b)))) := by
  have hinfinity : Positive (unpack spec (pack spec (.infinity .positive))) := by
    rw [show unpack spec (pack spec (.infinity .positive)) = .infinity .positive from
      unpack_packedInfinity spec .positive]
    rfl
  rcases ha.cases with hua | ⟨m₁, e₁, h₁, hua⟩
  · -- Plus infinity stays, whatever positive number is added
    rcases hb.cases with hub | ⟨m₂, e₂, h₂, hub⟩
    · rw [hua, hub]
      exact hinfinity
    · rw [hua, hub]
      exact hinfinity
  · rcases hb.cases with hub | ⟨m₂, e₂, h₂, hub⟩
    · rw [hua, hub]
      exact hinfinity
    · -- Both exponents are in the format, and so is the smaller one
      obtain ⟨m, hm, hadd⟩ := add_positive_finite spec e₁ e₂ h₁ h₂
      rw [hua, hub, hadd]
      exact positive_pack_round hspec hm
        (le_min (canonical_unpack hua).low (canonical_unpack hub).low)

/-- A sum of positive numbers is positive. -/
theorem positive_add {x y : Float} (hx : Positive x.toModel.unpack)
    (hy : Positive y.toModel.unpack) : Positive (x + y).toModel.unpack := by
  have hspec : 2 ≤ Format.binary64.exponentBits := by decide
  exact positive_unpacked_add hspec hx hy

/-- A positive number that is added to minus zero stays positive. -/
theorem positive_negativeZeroWide_add {y : Float} (hy : Positive y.toModel.unpack) :
    Positive (negativeZeroWide + y).toModel.unpack := by
  have hadd : (negativeZeroWide + y).toModel.unpack =
      unpack .binary64 (pack .binary64 (add .binary64 (.zero .negative) y.toModel.unpack)) := rfl
  have hneutral : add .binary64 (.zero .negative) y.toModel.unpack = y.toModel.unpack := by
    refine zero_add_of_ne_zero .binary64 (fun sign hzero => ?_) .negative
    rw [hzero] at hy
    exact hy
  rw [hadd, hneutral]
  rwa [show unpack .binary64 (pack .binary64 y.toModel.unpack) = y.toModel.unpack from
    unpack_pack_unpack _ (by decide)]

/-- A sum of positive weights is positive from any positive number on. -/
theorem positive_foldl_add {weights : List Float32} {total : Float}
    (htotal : Positive total.toModel.unpack) (hweights : ∀ w ∈ weights, ofInt 0 < w) :
    Positive (weights.foldl (fun total w => total + widen w) total).toModel.unpack := by
  -- Induction on the weights; the sum so far is positive whatever it is
  induction weights generalizing total with
  | nil => exact htotal
  | cons w rest ih =>
    have hw := (zero_lt_iff_positive w).1 (hweights w List.mem_cons_self)
    rw [List.foldl_cons]
    exact ih (positive_add htotal (positive_widen hw))
      fun u hu => hweights u (List.mem_cons_of_mem _ hu)

end Stencil.Precision
