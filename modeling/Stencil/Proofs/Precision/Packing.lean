import Mathlib
import Stencil.Precision

/-!
# Packing and shifting

Two facts about decoded numbers on which everything else rests: a normal number survives packing,
and shifting a mantissa to another exponent divides it by a power of two.

## Key results

- `unpack_pack_of_normal`: a normal number survives packing
- `mantissa_shiftRight`: a shift by `k` bits divides the mantissa by `2 ^ k`
-/

namespace Stencil.Precision

open Float.Model (Format UnpackedFloat)
open Float.Model.UnpackedFloat

/-- The bits below the leading one of a mantissa, with the leading one put back. -/
private theorem toNat_leading_append {bits m : Nat} (h : m.log2 = bits) (hm : 0 < m) :
    (1#1 ++ BitVec.ofNat bits m).toNat = m := by
  have hm' : m ≠ 0 := Nat.ne_of_gt hm
  have hlow : 2 ^ bits ≤ m := h ▸ Nat.log2_self_le hm'
  have hhigh : m < 2 ^ (bits + 1) := h ▸ Nat.lt_log2_self
  -- Dropping the leading one subtracts its place value
  have hrest : m % 2 ^ bits = m - 2 ^ bits := by
    rw [Nat.mod_eq_sub_mod hlow, Nat.mod_eq_of_lt]
    rw [Nat.pow_succ] at hhigh
    omega
  have hbits : m % 2 ^ bits < 2 ^ bits := Nat.mod_lt _ (Nat.two_pow_pos bits)
  rw [BitVec.toNat_append, BitVec.toNat_ofNat, BitVec.toNat_ofNat, Nat.shiftLeft_eq,
    Nat.mul_comm, ← Nat.two_pow_add_eq_or_of_lt hbits]
  simp only [Nat.pow_one, Nat.one_mod, Nat.mul_one]
  omega

/-- A normal number survives packing. -/
theorem unpack_pack_of_normal {spec : Format} {sign : Sign} {m : Nat} {e : Int} (hm : 0 < m)
    (hlog : m.log2 = spec.mantissaBitsWithoutImplicit)
    (hlow : 0 < e + spec.exponentBias + spec.mantissaBitsWithoutImplicit)
    (hhigh : e + spec.exponentBias + spec.mantissaBitsWithoutImplicit + 1 <
      (2 ^ spec.exponentBits : Nat)) :
    unpack spec (pack spec (.finite sign m e hm)) = .finite sign m e hm := by
  obtain ⟨biased, hbiased⟩ : ∃ biased : Nat,
      (biased : Int) = e + spec.exponentBias + spec.mantissaBitsWithoutImplicit :=
    ⟨_, Int.toNat_of_nonneg (Int.le_of_lt hlow)⟩
  have hpositive : 0 < biased := by omega
  have hbelow : biased + 1 < 2 ^ spec.exponentBits := by omega
  have htoNat : (BitVec.ofNat spec.exponentBits biased).toNat = biased := by
    rw [BitVec.toNat_ofNat, Nat.mod_eq_of_lt (by omega)]
  -- The exponent field is neither all ones nor zero.
  have hones : BitVec.ofNat spec.exponentBits biased ≠ -1#_ := by
    intro h
    have hvalue := congrArg BitVec.toNat h
    rw [htoNat, BitVec.neg_one_eq_allOnes, BitVec.toNat_allOnes] at hvalue
    omega
  have hzero : BitVec.ofNat spec.exponentBits biased ≠ 0#_ := by
    intro h
    have hvalue := congrArg BitVec.toNat h
    rw [htoNat, BitVec.toNat_ofNat, Nat.zero_mod] at hvalue
    omega
  -- So the number is packed as a normal one
  have hpack : pack spec (.finite sign m e hm) =
      packComponents spec sign (BitVec.ofNat _ biased) (BitVec.ofNat _ m) := by
    unfold pack
    rw [← hbiased, Int.toNat_natCast, if_neg (by omega), if_pos]
    rw [hlog, Format.mantissaBits, Nat.add_comm]
  rw [hpack]
  unfold unpack
  simp only [unpackExponent_packComponents, unpackMantissa_packComponents,
    unpackSign_packComponents, Sign.ofBitVec_toBitVec, if_neg hones, if_neg hzero, htoNat,
    toNat_leading_append hlog hm]
  congr 1
  omega

/-! ## Shifting -/

/-- A shift by `k` bits divides the mantissa by `2 ^ k`. -/
theorem mantissa_shiftRight (em : ExtendedMantissa) (k : Nat) :
    (em >>> k).mantissa = em.mantissa / 2 ^ k := by
  induction k with
  | zero =>
    rw [Nat.pow_zero, Nat.div_one]
    rfl
  | succ k ih =>
    have hstep : (em >>> (k + 1)).mantissa = (em >>> k).mantissa / 2 := rfl
    rw [hstep, ih, Nat.div_div_eq_div_mul, Nat.pow_succ]

end Stencil.Precision
