import Stencil.Proofs.Decimal.Written
import Stencil.Proofs.Precision.Rounding

/-!
# Whole numbers in single precision

A whole number of at most 24 bits is converted to single precision exactly: it is taken back
unchanged, and it is written with its own digits.  The proof follows the conversion: the mantissa
fits, so rounding only moves its leading one to the leading place, and there it survives packing.

## Key results

- `unpack_ofInt`: a whole number of at most 24 bits as it is decoded
- `toInt_ofInt`: such a number is taken back unchanged
- `fixed_ofInt`: such a number is written with its own digits
-/

namespace Stencil.Precision

open Float.Model (Format UnpackedFloat)
open Float.Model.UnpackedFloat

/-! ## Decoded whole numbers -/

/-- The first whole number beyond which not every one has single precision, `2 ^ 24`. -/
def wholeLimit : Int := 0x1000000

/-- The sign of a whole number. -/
def signOf (n : Int) : Sign := if n < 0 then .negative else .positive

/-- A whole number is its magnitude with its sign. -/
theorem signOf_apply (n : Int) : (signOf n).apply n.natAbs = n := by
  unfold signOf
  split
  · simp only [Sign.apply]
    omega
  · simp only [Sign.apply]
    omega

/-- Converting a whole number other than zero rounds its magnitude. -/
theorem ofInt_eq_round {n : Int} (hn : n ≠ 0) :
    UnpackedFloat.ofInt .binary32 n = UnpackedFloat.round .binary32 (signOf n) n.natAbs 0 := by
  unfold UnpackedFloat.ofInt UnpackedFloat.normalize signOf
  rcases Int.lt_or_gt_of_ne hn with hneg | hpos
  · have hcompare : compare n 0 = .lt := compare_lt_iff_lt.2 hneg
    have hmagnitude : (-n).toNat = n.natAbs := by omega
    rw [hcompare, if_pos hneg]
    simp only [hmagnitude]
  · have hcompare : compare n 0 = .gt := compare_gt_iff_gt.2 hpos
    have hmagnitude : n.toNat = n.natAbs := by omega
    rw [hcompare, if_neg (by omega)]
    simp only [hmagnitude]

/-- A whole number of at most 24 bits is decoded as its sign and a scaled magnitude. -/
theorem unpack_ofInt {n : Int} (hn : n ≠ 0) (hlow : -wholeLimit ≤ n) (hhigh : n ≤ wholeLimit) :
    ∃ m e hm, (ofInt n).toModel.unpack = .finite (signOf n) m e hm ∧
      m * 2 ^ e.toNat = n.natAbs * 2 ^ (-e).toNat := by
  unfold wholeLimit at hlow hhigh
  have hm : 0 < n.natAbs := by omega
  have hofInt : (ofInt n).toModel.unpack =
      unpack .binary32 (pack .binary32 (UnpackedFloat.round .binary32 (signOf n) n.natAbs 0)) := by
    rw [← ofInt_eq_round hn]
    rfl
  rw [hofInt]
  rcases Nat.lt_or_ge n.natAbs (2 ^ 24) with hsmall | hlarge
  · -- At most 24 bits: the mantissa fits.
    have hlog : n.natAbs.log2 ≤ 23 := by
      have := (Nat.log2_lt (Nat.ne_of_gt hm)).2 hsmall
      omega
    have hmin : Format.binary32.minExponent ≤ 0 + n.natAbs.log2 - (23 : Nat) := by
      show (-149 : Int) ≤ _
      omega
    have hleading : (n.natAbs * 2 ^ (23 - n.natAbs.log2)).log2 = 23 := by
      rw [log2_mul_two_pow hm]
      omega
    have hround : UnpackedFloat.round .binary32 (signOf n) n.natAbs 0 =
        .finite (signOf n) (n.natAbs * 2 ^ (23 - n.natAbs.log2)) (0 - (23 - n.natAbs.log2 : Nat))
          (Nat.mul_pos hm (Nat.two_pow_pos _)) := round_of_log2_le (signOf n) hm hlog hmin
    rw [hround]
    -- Now the mantissa has its leading one in place, and the exponent is in range
    refine ⟨_, _, Nat.mul_pos hm (Nat.two_pow_pos _),
      unpack_pack_of_normal _ hleading ?_ ?_, ?_⟩
    · show 0 < _ + ((127 : Nat) : Int) + (23 : Nat)
      omega
    · show _ + ((127 : Nat) : Int) + (23 : Nat) + 1 < ((256 : Nat) : Int)
      omega
    · have hup : (0 - (23 - n.natAbs.log2 : Nat) : Int).toNat = 0 := by omega
      have hdown : (-(0 - (23 - n.natAbs.log2 : Nat)) : Int).toNat = 23 - n.natAbs.log2 := by omega
      rw [hup, hdown, Nat.pow_zero, Nat.mul_one]
  · -- The limit itself is a power of two.
    have hlimit : n.natAbs = 2 ^ 24 := by omega
    rw [hlimit]
    refine ⟨2 ^ 23, 1, by decide, ?_, by decide⟩
    cases signOf n with
    | positive => rfl
    | negative => rfl

/-- Zero is decoded as zero. -/
theorem unpack_ofInt_zero : (ofInt 0).toModel.unpack = .zero .positive := rfl

/-! ## Taking a whole number back -/

/-- The integer part of a decoded number is its mantissa scaled and divided by powers of two. -/
theorem roundToInt_eq (sign : Sign) (m : Nat) (e : Int) :
    roundToInt sign m e = sign.apply (m * 2 ^ e.toNat / 2 ^ (-e).toNat : Nat) := by
  have hup : (e - 0).toNat = e.toNat := by omega
  have hdown : (0 - (e - (e.toNat : Int))).toNat = (-e).toNat := by omega
  unfold roundToInt decreaseExponent shiftToExponent
  simp only [hup, hdown, mantissa_shiftRight, Nat.shiftLeft_eq]
  rfl

/-- A whole number of at most 24 bits is taken back unchanged. -/
theorem toInt_ofInt {n : Int} (hlow : -wholeLimit ≤ n) (hhigh : n ≤ wholeLimit) :
    toInt (ofInt n) = n := by
  -- The limits of a signed word do not matter in this range
  have hinside : ∀ z : Int, z = n → max (-Word.signedLimit) (min (Word.signedLimit - 1) z) = n := by
    rintro z rfl
    unfold wholeLimit Word.signedLimit at *
    omega
  refine hinside _ ?_
  by_cases hn : n = 0
  · rw [hn, unpack_ofInt_zero]
    rfl
  · obtain ⟨m, e, hm, hunpack, hscale⟩ := unpack_ofInt hn hlow hhigh
    rw [hunpack]
    simp only [UnpackedFloat.toInt]
    rw [roundToInt_eq, hscale, Nat.mul_div_cancel _ (Nat.two_pow_pos _), signOf_apply]

/-! ## Writing a whole number -/

open Decimal (roundDiv fixedUnits fixedChars positional signText)

/-- A quotient without remainder is not rounded. -/
private theorem roundDiv_mul (n : Nat) {den : Nat} (h : 0 < den) : roundDiv (n * den) den = n := by
  unfold roundDiv
  rw [Nat.mul_div_cancel _ h, Nat.mul_mod_left]
  exact if_pos h

/-- A whole number in units of the last place is not rounded. -/
private theorem fixedUnits_of_scale {places m n : Nat} {e : Int}
    (h : m * 2 ^ e.toNat = n * 2 ^ (-e).toNat) : fixedUnits places m e = n * 10 ^ places := by
  cases e with
  | ofNat k =>
    -- No places after the point: the units are the exact product
    have hdown : (-(Int.ofNat k)).toNat = 0 := by simp
    rw [hdown, Nat.pow_zero, Nat.mul_one] at h
    exact congrArg (· * 10 ^ places) h
  | negSucc k =>
    -- The divisor is a factor of the mantissa
    have hup : (Int.negSucc k).toNat = 0 := rfl
    have hdown : (-(Int.negSucc k)).toNat = k + 1 := by simp
    rw [hup, hdown, Nat.pow_zero, Nat.mul_one] at h
    have hswap : m * 10 ^ places = n * 10 ^ places * 2 ^ (k + 1) := by
      rw [h, Nat.mul_right_comm]
    show roundDiv (m * 10 ^ places) (2 ^ (k + 1)) = _
    rw [hswap, roundDiv_mul _ (Nat.two_pow_pos (k + 1))]

/-- A whole number with one place has a zero behind its point. -/
private theorem positional_whole (n : Nat) :
    positional ⟨n * 10 ^ 1, -((1 : Nat) : Int)⟩ = Nat.toDigits 10 n ++ ['.', '0'] := by
  have hwhole : n * 10 ^ 1 / Nat.pow 10 1 = n := Nat.mul_div_cancel n (by decide)
  have hfraction : n * 10 ^ 1 % Nat.pow 10 1 = 0 := Nat.mul_mod_left n _
  show Nat.toDigits 10 (n * 10 ^ 1 / Nat.pow 10 1) ++
    '.' :: Decimal.fractionDigits 1 (n * 10 ^ 1 % Nat.pow 10 1) = _
  rw [hwhole, hfraction]
  rfl

/-- The text of a whole number is its sign and the digits of its magnitude. -/
private theorem toList_toString (n : Int) :
    (toString n).toList = signText (signOf n) ++ Nat.toDigits 10 n.natAbs := by
  cases n with
  | ofNat n => exact Nat.toList_repr
  | negSucc n =>
    have hsign : signOf (Int.negSucc n) = .negative := if_pos (Int.negSucc_lt_zero n)
    show ("-" ++ Nat.repr (n + 1)).toList = _
    rw [String.toList_append, Nat.toList_repr, hsign]
    rfl

/-- A whole number of at most 24 bits is written with its own digits. -/
theorem fixed_ofInt {n : Int} (hlow : -wholeLimit ≤ n) (hhigh : n ≤ wholeLimit) :
    Decimal.fixed 1 (ofInt n) = toString n ++ ".0" := by
  rw [← String.toList_inj, Decimal.fixed, String.toList_ofList, String.toList_append,
    toList_toString]
  by_cases hn : n = 0
  · rw [hn, unpack_ofInt_zero]
    rfl
  · obtain ⟨m, e, hm, hunpack, hscale⟩ := unpack_ofInt hn hlow hhigh
    rw [hunpack]
    show signText _ ++ positional ⟨fixedUnits 1 m e, -((1 : Nat) : Int)⟩ = _
    rw [fixedUnits_of_scale hscale, positional_whole, List.append_assoc]
    rfl

end Stencil.Precision
