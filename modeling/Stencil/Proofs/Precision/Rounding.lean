import Stencil.Proofs.Precision.Packing

/-!
# Rounding what needs no rounding

A mantissa that fits a format is only moved, with its exponent, to the place where the format stores
it.  A mantissa that was scaled up by a power of two is moved back, as the bits that fall off are
zeros.  `Canonical` is the form in which a format stores its numbers, and every number that is
unpacked has it.

## Key results

- `round_of_log2_le`: rounding a mantissa that fits changes its scale only
- `canonical_unpack`: what is unpacked is in canonical form
- `roundWithAccuracy_shifted`: a canonical number that was scaled up is rounded to itself
- `unpack_pack_of_canonical`: a canonical number survives packing, or becomes an infinity
- `unpack_pack_unpack` / `unpack_pack_abs`: what was unpacked survives packing, and so does its
  magnitude
-/

namespace Stencil.Precision

open Float.Model (Format UnpackedFloat totalExponent)
open Float.Model.UnpackedFloat

/-! ## Mantissas that fit -/

/-- Doubling moves the leading one by one place. -/
theorem log2_mul_two_pow {m : Nat} (hm : 0 < m) (k : Nat) : (m * 2 ^ k).log2 = m.log2 + k := by
  have hm' : m ≠ 0 := Nat.ne_of_gt hm
  have hpos : m * 2 ^ k ≠ 0 := Nat.ne_of_gt (Nat.mul_pos hm (Nat.two_pow_pos k))
  rw [Nat.log2_eq_iff hpos]
  constructor
  · rw [Nat.pow_add]
    exact Nat.mul_le_mul_right _ (Nat.log2_self_le hm')
  · rw [Nat.add_right_comm, Nat.pow_add]
    exact Nat.mul_lt_mul_of_pos_right Nat.lt_log2_self (Nat.two_pow_pos k)

/-- Nothing is shifted out when the exponent has reached its target. -/
theorem shiftToTargetExponent_of_le {spec : Format} {m : Nat} {e : Int}
    (h : spec.targetExponent (totalExponent m e) ≤ e) :
    shiftToTargetExponent spec m e .exact = (⟨m, false, false⟩, e) := by
  have hshift : (spec.targetExponent (totalExponent m e) - e).toNat = 0 := by omega
  unfold shiftToTargetExponent shiftToExponent
  simp only [hshift, Int.natCast_zero, Int.add_zero]
  rfl

/-- A number whose exponent has reached its target is rounded already. -/
private theorem roundWithAccuracy_of_le {spec : Format} (sign : Sign) {m : Nat} {e : Int}
    (hm : 0 < m) (h : spec.targetExponent (totalExponent m e) ≤ e) :
    roundWithAccuracy spec sign m e .exact = .finite sign m e hm := by
  have hrounded : (ExtendedMantissa.mk m false false).roundedMantissa = m := rfl
  unfold roundWithAccuracy
  simp only [shiftToTargetExponent_of_le h, hrounded, dif_neg (Nat.ne_of_gt hm)]

/-- Rounding a mantissa that fits moves its leading one to the leading place. -/
theorem round_of_log2_le {spec : Format} (sign : Sign) {m : Nat} {e : Int} (hm : 0 < m)
    (hlog : m.log2 ≤ spec.mantissaBitsWithoutImplicit)
    (hmin : spec.minExponent ≤ e + m.log2 - spec.mantissaBitsWithoutImplicit) :
    UnpackedFloat.round spec sign m e =
      .finite sign (m * 2 ^ (spec.mantissaBitsWithoutImplicit - m.log2))
        (e - (spec.mantissaBitsWithoutImplicit - m.log2 : Nat))
        (Nat.mul_pos hm (Nat.two_pow_pos _)) := by
  have htarget : spec.targetExponent (totalExponent m e) =
      e + m.log2 - spec.mantissaBitsWithoutImplicit := by
    unfold Format.targetExponent totalExponent Format.mantissaBits
    omega
  have hshift : (e - spec.targetExponent (totalExponent m e)).toNat =
      spec.mantissaBitsWithoutImplicit - m.log2 := by omega
  have hleading : (m * 2 ^ (spec.mantissaBitsWithoutImplicit - m.log2)).log2 =
      spec.mantissaBitsWithoutImplicit := by
    rw [log2_mul_two_pow hm]
    omega
  -- The first step moves the exponent down to its target; nothing is left to round
  unfold UnpackedFloat.round decreaseExponent
  simp only [hshift, Nat.shiftLeft_eq]
  refine roundWithAccuracy_of_le sign (Nat.mul_pos hm (Nat.two_pow_pos _)) ?_
  unfold Format.targetExponent totalExponent Format.mantissaBits
  rw [hleading]
  omega

/-! ## Canonical form -/

/-- A mantissa and its exponent as a format stores them: the leading one is in the leading place,
    or the exponent is the smallest one. -/
structure Canonical (spec : Format) (m : Nat) (e : Int) : Prop where
  mantissa_lt : m < 2 ^ spec.mantissaBits
  low : spec.minExponent ≤ e
  leading : 2 ^ spec.mantissaBitsWithoutImplicit ≤ m ∨ e = spec.minExponent

/-- The smallest exponent is the one that the lowest field of the bits stands for. -/
private theorem minExponent_eq (spec : Format) :
    spec.minExponent = 1 - ((spec.exponentBias : Int) + spec.mantissaBitsWithoutImplicit) := by
  have hpow : 1 ≤ 2 ^ (spec.exponentBits - 1) := Nat.two_pow_pos _
  have hbias : (spec.exponentBias : Int) = 2 ^ (spec.exponentBits - 1) - 1 := by
    unfold Format.exponentBias
    rw [Nat.cast_sub hpow]
    simp
  unfold Format.minExponent Format.mantissaBits
  omega

/-- What is unpacked is in canonical form. -/
theorem canonical_unpack {spec : Format} {bits : BitVec spec.numBits} {sign : Sign} {m : Nat}
    {e : Int} {hm : 0 < m} (h : unpack spec bits = .finite sign m e hm) : Canonical spec m e := by
  have hmin := minExponent_eq spec
  have hplace : 2 ^ spec.mantissaBits = 2 * 2 ^ spec.mantissaBitsWithoutImplicit := by
    rw [Format.mantissaBits, Nat.pow_add, Nat.pow_one]
  have hfield : (unpackMantissa bits).toNat < 2 ^ spec.mantissaBitsWithoutImplicit :=
    (unpackMantissa bits).isLt
  unfold unpack at h
  dsimp only at h
  split at h
  · -- All ones: an infinity or NaN.
    split at h
    · exact absurd h (by simp)
    · exact absurd h (by simp)
  · split at h
    · rename_i hzero
      split at h
      · exact absurd h (by simp)
      · -- The lowest exponent, without leading one
        obtain ⟨-, rfl, rfl⟩ := UnpackedFloat.finite.inj h
        rw [hzero]
        refine ⟨by omega, ?_, Or.inr ?_⟩
        all_goals
          rw [hmin, BitVec.toNat_ofNat, Nat.zero_mod]
          omega
    · -- A normal number, with its leading one put back
      rename_i hzero
      obtain ⟨-, rfl, rfl⟩ := UnpackedFloat.finite.inj h
      have hpositive : 0 < (unpackExponent bits).toNat := by
        refine Nat.pos_of_ne_zero fun hnat => hzero ?_
        exact BitVec.eq_of_toNat_eq (by rw [hnat, BitVec.toNat_ofNat, Nat.zero_mod])
      have hleading : (1#1 ++ unpackMantissa bits).toNat =
          2 ^ spec.mantissaBitsWithoutImplicit + (unpackMantissa bits).toNat := by
        rw [BitVec.toNat_append, ← Nat.shiftLeft_add_eq_or_of_lt hfield, Nat.shiftLeft_eq]
        simp
      rw [hleading]
      exact ⟨by omega, by omega, Or.inl (Nat.le_add_right _ _)⟩

/-- The exponent of what is unpacked is in the range of the exponent field. -/
theorem exponent_lt_of_unpack {spec : Format} {bits : BitVec spec.numBits} {sign : Sign} {m : Nat}
    {e : Int} {hm : 0 < m} (h : unpack spec bits = .finite sign m e hm) :
    e + spec.exponentBias + spec.mantissaBitsWithoutImplicit < (2 ^ spec.exponentBits : Nat) := by
  have hfield : (unpackExponent bits).toNat < 2 ^ spec.exponentBits := (unpackExponent bits).isLt
  have hone : 1 < 2 ^ spec.exponentBits := Nat.one_lt_two_pow (Nat.ne_of_gt spec.he)
  unfold unpack at h
  dsimp only at h
  split at h
  · split at h
    · exact absurd h (by simp)
    · exact absurd h (by simp)
  · split at h
    · rename_i hzero
      split at h
      · exact absurd h (by simp)
      · obtain ⟨-, -, rfl⟩ := UnpackedFloat.finite.inj h
        rw [hzero, BitVec.toNat_ofNat, Nat.zero_mod]
        omega
    · obtain ⟨-, -, rfl⟩ := UnpackedFloat.finite.inj h
      omega

/-- The exponent of a canonical number has reached its target. -/
theorem Canonical.targetExponent_eq {spec : Format} {m : Nat} {e : Int} (h : Canonical spec m e)
    (hm : 0 < m) : spec.targetExponent (totalExponent m e) = e := by
  have hlog : m.log2 < spec.mantissaBits := (Nat.log2_lt (Nat.ne_of_gt hm)).2 h.mantissa_lt
  have hlow := h.low
  unfold Format.targetExponent totalExponent
  rcases h.leading with hleading | hleast
  · have hplace : spec.mantissaBitsWithoutImplicit ≤ m.log2 :=
      (Nat.le_log2 (Nat.ne_of_gt hm)).2 hleading
    unfold Format.mantissaBits at *
    omega
  · omega

/-- The zeros below a scaled mantissa are shifted out without a trace. -/
private theorem mul_two_pow_shiftRight (m k : Nat) :
    ExtendedMantissa.mk (m * 2 ^ k) false false >>> k = ⟨m, false, false⟩ := by
  induction k generalizing m with
  | zero =>
    rw [Nat.pow_zero, Nat.mul_one]
    rfl
  | succ k ih =>
    -- All but the last shift leave `2 * m`
    have hshift : ExtendedMantissa.mk (m * 2 ^ (k + 1)) false false >>> (k + 1) =
        (ExtendedMantissa.mk (m * 2 * 2 ^ k) false false >>> k).shiftRightOne := by
      rw [Nat.pow_succ', ← Nat.mul_assoc]
      rfl
    rw [hshift, ih]
    simp [ExtendedMantissa.shiftRightOne]

/-- A canonical number that was scaled up by a power of two is rounded to itself. -/
theorem roundWithAccuracy_shifted {spec : Format} {m : Nat} {e : Int} (h : Canonical spec m e)
    (sign : Sign) (hm : 0 < m) (k : Nat) :
    roundWithAccuracy spec sign (m * 2 ^ k) (e - k) .exact = .finite sign m e hm := by
  have htotal : totalExponent (m * 2 ^ k) (e - k) = totalExponent m e := by
    unfold totalExponent
    rw [log2_mul_two_pow hm]
    omega
  have hamount : (e - (e - k)).toNat = k := by omega
  have hback : e - k + (k : Int) = e := by omega
  have hfirst : shiftToTargetExponent spec (m * 2 ^ k) (e - k) .exact = (⟨m, false, false⟩, e) := by
    unfold shiftToTargetExponent shiftToExponent
    simp only [htotal, h.targetExponent_eq hm, hamount, hback]
    exact congrArg (·, e) (mul_two_pow_shiftRight m k)
  -- The first shift is exact, so there is nothing to round and nothing left to shift
  have hrounded : (ExtendedMantissa.mk m false false).roundedMantissa = m := rfl
  unfold roundWithAccuracy
  simp only [hfirst, hrounded, shiftToTargetExponent_of_le (Int.le_of_eq (h.targetExponent_eq hm)),
    dif_neg (Nat.ne_of_gt hm)]

/-! ## Packing again -/

/-- What was unpacked survives packing. -/
theorem unpack_pack_unpack {spec : Format} (bits : BitVec spec.numBits)
    (hspec : 2 ≤ spec.exponentBits) :
    unpack spec (pack spec (unpack spec bits)) = unpack spec bits := by
  rw [pack_unpack bits hspec]
  split
  · rename_i hnan
    -- Only the bits of a NaN can change, and NaN they stay
    rw [unpack_packedNaN]
    simp only [isNaNBits, decide_eq_true_eq] at hnan
    unfold unpack
    rw [if_pos hnan.1, if_neg hnan.2]
  · rfl

/-- A number without leading bit survives packing. -/
private theorem unpack_pack_of_subnormal {spec : Format} {sign : Sign} {m : Nat} (hm : 0 < m)
    (hlt : m < 2 ^ spec.mantissaBitsWithoutImplicit) (hspec : 2 ≤ spec.exponentBits) :
    unpack spec (pack spec (.finite sign m spec.minExponent hm)) =
      .finite sign m spec.minExponent hm := by
  have hmin := minExponent_eq spec
  have hlog : m.log2 < spec.mantissaBitsWithoutImplicit := (Nat.log2_lt (Nat.ne_of_gt hm)).2 hlt
  have hfield : 4 ≤ 2 ^ spec.exponentBits := Nat.pow_le_pow_right (n := 2) (by decide) hspec
  have hbiased : (spec.minExponent + spec.exponentBias + spec.mantissaBitsWithoutImplicit).toNat =
      1 := by omega
  have hpack : pack spec (.finite sign m spec.minExponent hm) =
      packComponents spec sign 0#_ (BitVec.ofNat _ m) := by
    unfold pack
    dsimp only
    rw [hbiased, if_neg (by omega), if_neg]
    rw [Format.mantissaBits]
    omega
  have htoNat : (BitVec.ofNat spec.mantissaBitsWithoutImplicit m).toNat = m := by
    rw [BitVec.toNat_ofNat, Nat.mod_eq_of_lt hlt]
  have hne : BitVec.ofNat spec.mantissaBitsWithoutImplicit m ≠ 0#_ := by
    intro h
    have hvalue := congrArg BitVec.toNat h
    rw [htoNat, BitVec.toNat_ofNat, Nat.zero_mod] at hvalue
    omega
  have hones : BitVec.ofNat spec.exponentBits 0 ≠ -1#_ := by
    intro h
    have hvalue := congrArg BitVec.toNat h
    rw [BitVec.neg_one_eq_allOnes, BitVec.toNat_allOnes, BitVec.toNat_ofNat, Nat.zero_mod] at hvalue
    omega
  rw [hpack]
  unfold unpack
  simp only [unpackExponent_packComponents, unpackMantissa_packComponents,
    unpackSign_packComponents, Sign.ofBitVec_toBitVec, if_neg hones, ↓reduceIte, dif_neg hne, htoNat,
    BitVec.toNat_ofNat, Nat.zero_mod]
  congr 1
  omega

/-- An infinity survives packing. -/
theorem unpack_packedInfinity (spec : Format) (sign : Sign) :
    unpack spec (packedInfinity spec sign) = .infinity sign := by
  simp [unpack, packedInfinity]

/-- A canonical number survives packing, if its exponent is in range, and otherwise becomes an
    infinity. -/
theorem unpack_pack_of_canonical {spec : Format} {sign : Sign} {m : Nat} {e : Int}
    (h : Canonical spec m e) (hm : 0 < m) (hspec : 2 ≤ spec.exponentBits) :
    unpack spec (pack spec (.finite sign m e hm)) =
      if e + spec.exponentBias + spec.mantissaBitsWithoutImplicit + 1 <
          (2 ^ spec.exponentBits : Nat) then .finite sign m e hm
      else .infinity sign := by
  have hmin := minExponent_eq spec
  have hlow := h.low
  split
  · rename_i hrange
    rcases Nat.lt_or_ge m (2 ^ spec.mantissaBitsWithoutImplicit) with hlt | hge
    · -- Without leading bit the exponent is the smallest one
      obtain rfl := h.leading.resolve_left (Nat.not_le.2 hlt)
      exact unpack_pack_of_subnormal hm hlt hspec
    · have hlog : m.log2 = spec.mantissaBitsWithoutImplicit := by
        refine (Nat.log2_eq_iff (Nat.ne_of_gt hm)).2 ⟨hge, ?_⟩
        have := h.mantissa_lt
        rwa [Format.mantissaBits, Nat.add_comm] at this
      exact unpack_pack_of_normal hm hlog (by omega) hrange
  · rename_i hrange
    have hpack : pack spec (.finite sign m e hm) = packedInfinity spec sign := by
      unfold pack
      dsimp only
      rw [if_pos (by omega)]
    rw [hpack, unpack_packedInfinity]

/-- Nothing but NaN is packed as NaN. -/
theorem unpack_pack_ne_notANumber {spec : Format} {u : UnpackedFloat} (h : u ≠ .notANumber)
    (hspec : 2 ≤ spec.exponentBits) : unpack spec (pack spec u) ≠ .notANumber := by
  have hfield : 4 ≤ 2 ^ spec.exponentBits := Nat.pow_le_pow_right (n := 2) (by decide) hspec
  -- A finite number is packed with an exponent that is not all ones, or as an infinity
  have hcomponents : ∀ sign (exponent : ℕ) mantissa, exponent + 1 < 2 ^ spec.exponentBits →
      unpack spec (packComponents spec sign (BitVec.ofNat _ exponent) mantissa) ≠ .notANumber := by
    intro sign exponent mantissa hlt
    have hones : BitVec.ofNat spec.exponentBits exponent ≠ -1#_ := by
      intro heq
      have hvalue := congrArg BitVec.toNat heq
      rw [BitVec.toNat_ofNat, Nat.mod_eq_of_lt (by omega), BitVec.neg_one_eq_allOnes,
        BitVec.toNat_allOnes] at hvalue
      omega
    unfold unpack
    simp only [unpackExponent_packComponents, if_neg hones]
    split
    · split <;> simp
    · simp
  cases u with
  | notANumber => exact absurd rfl h
  | infinity sign =>
    rw [show pack spec (.infinity sign) = packedInfinity spec sign from rfl,
      unpack_packedInfinity]
    simp
  | zero sign =>
    rw [show pack spec (.zero sign) = packedZero spec sign from rfl, unpack_packedZero]
    simp
  | finite sign m e hm =>
    unfold pack
    dsimp only
    split
    · rw [unpack_packedInfinity]
      simp
    · split
      · exact hcomponents _ _ _ (by omega)
      · exact hcomponents _ 0 _ (by omega)

/-- The magnitude of what was unpacked survives packing: it has the same bits with a plus. -/
theorem unpack_pack_abs {spec : Format} (bits : BitVec spec.numBits)
    (hspec : 2 ≤ spec.exponentBits) :
    unpack spec (pack spec (unpack spec bits).abs) = (unpack spec bits).abs := by
  have habs : (unpack spec bits).abs =
      unpack spec (packComponents spec .positive (unpackExponent bits) (unpackMantissa bits)) := by
    unfold unpack
    simp only [unpackExponent_packComponents, unpackMantissa_packComponents,
      unpackSign_packComponents, Sign.ofBitVec_toBitVec]
    split
    · split <;> rfl
    · split
      · split <;> rfl
      · rfl
  rw [habs, unpack_pack_unpack _ hspec]

end Stencil.Precision
