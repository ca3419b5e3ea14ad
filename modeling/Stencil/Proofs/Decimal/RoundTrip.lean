import Stencil.Decimal.Shortest
import Stencil.Proofs.Decimal.Written
import Stencil.Proofs.Precision.Rounding

/-!
# Shortest decimals are read back

A finite single precision number, written with the fewest digits, is read as the same number, bit
for bit.  The search for the shortest decimal tests what it finds, so a decimal it finds reads back
by construction.  If it finds none the exact decimal is written, and that is read back because no
bit is lost: its digits are the mantissa times a power of five, and dividing by the power of ten
leaves the mantissa times a power of two.

Writing drops the exponent of a decimal above zero in favour of trailing zeros, so what is read is
the decimal `expanded`; both round to the same number.

## Key results

- `readDecimal?_positional_expanded`: a written decimal is read as it was expanded
- `toSingle_ofBinary`: the exact decimal of a number rounds to the number
- `readSingle?_writeSingle`: a finite number is read back from its shortest decimal
- `isDigit_or_mem_writeSingle`: the characters of a finite number
-/

namespace Stencil.Decimal

open Float.Model (Format UnpackedFloat totalExponent)
open Float.Model.UnpackedFloat
open Precision (Canonical)

/-! ## Trailing zeros -/

/-- The decimal of the same value that has no exponent above zero. -/
def expanded (d : Decimal) : Decimal :=
  match d.exponent with
  | .ofNat k => ⟨d.digits * 10 ^ k, 0⟩
  | .negSucc _ => d

/-- A written decimal is read as it was expanded. -/
theorem readDecimal?_positional_expanded (d : Decimal) :
    Numeral.readDecimal? (positional d) = some d.expanded := by
  obtain ⟨digits, exponent⟩ := d
  cases exponent with
  | negSucc k => exact readDecimal?_positional (Nat.succ_pos k) digits
  | ofNat k =>
    -- Digits and zeros only, so the reader takes all of them as the whole part
    have hdigits : ∀ c ∈ Nat.toDigits 10 digits ++ List.replicate k '0', c.isDigit := by
      intro c hc
      rcases List.mem_append.1 hc with hdigit | hzero
      · exact Nat.isDigit_of_mem_toDigits (by decide) (by decide) hdigit
      · rw [List.eq_of_mem_replicate hzero]
        decide
    have hvalue : Nat.ofDigitChars 10 (Nat.toDigits 10 digits ++ List.replicate k '0') 0 =
        digits * 10 ^ k := by
      rw [Nat.ofDigitChars_append, Nat.ofDigitChars_ten_toDigits,
        Nat.ofDigitChars_replicate_zero, Nat.mul_comm]
    have hne : (Nat.toDigits 10 digits ++ List.replicate k '0').isEmpty = false := by
      simp [Nat.toDigits_ne_nil]
    show Numeral.readDecimal? (Nat.toDigits 10 digits ++ List.replicate k '0') =
      some ⟨digits * 10 ^ k, 0⟩
    rw [Numeral.readDecimal?, List.takeWhile_eq_self_iff.2 hdigits,
      List.dropWhile_eq_nil_iff.2 hdigits]
    simp [Numeral.readFraction, Numeral.readExponent?, hne, hvalue]

/-- A decimal with an exponent from zero up is rounded once, as a product. -/
private theorem ofScientific_natCast {n k : Nat} (hn : 0 < n) (hk : k ≤ 256) :
    UnpackedFloat.ofScientific .binary32 n k =
      roundWithAccuracy .binary32 .positive (n * 10 ^ k * 2 ^ 24) (-24) .exact := by
  -- The exponent is in the range in which the power of ten is computed
  have hsmall : ¬ (k : Int) > 2 ^ Format.binary32.exponentBits := by
    show ¬ (k : Int) > 2 ^ 8
    omega
  have hlow : ¬ (k : Int) < -(2 ^ Format.binary32.exponentBits + (n.log2 : Int)) := by
    show ¬ (k : Int) < -(2 ^ 8 + (n.log2 : Int))
    omega
  unfold UnpackedFloat.ofScientific
  rw [dif_neg (Nat.ne_of_gt hn), if_neg hsmall, if_neg hlow, if_pos (Int.natCast_nonneg k)]
  show roundWithAccuracy .binary32 .positive (n <<< 24 * 10 ^ k) (-24 + 0) .exact = _
  rw [Nat.shiftLeft_eq, Nat.mul_right_comm, Int.add_zero]

/-- Trailing zeros do not change the nearest number, as long as it is finite.  Past the largest
    exponent that is looked at, a decimal with an exponent is taken for an infinity at once. -/
theorem toSingle_expanded {d : Decimal} (h : d.toSingle.isFinite) :
    d.expanded.toSingle = d.toSingle := by
  obtain ⟨digits, exponent⟩ := d
  cases exponent with
  | negSucc k => rfl
  | ofNat k =>
    suffices UnpackedFloat.ofScientific .binary32 (digits * 10 ^ k) (0 : Nat) =
        UnpackedFloat.ofScientific .binary32 digits k from
      congrArg (fun u => Float32.ofModel (.pack u)) this
    by_cases hzero : digits = 0
    · simp [UnpackedFloat.ofScientific, hzero]
    by_cases hk : k ≤ 256
    · -- Both are the same product
      have hpos : 0 < digits := Nat.pos_of_ne_zero hzero
      rw [ofScientific_natCast hpos hk, ofScientific_natCast (by positivity) (Nat.zero_le 256),
        Nat.pow_zero, Nat.mul_one]
    · have hlarge : (k : Int) > 2 ^ Format.binary32.exponentBits := by
        show (k : Int) > 2 ^ 8
        omega
      have hinfinite : UnpackedFloat.ofScientific .binary32 digits k = .infinity .positive := by
        unfold UnpackedFloat.ofScientific
        rw [dif_neg hzero, if_pos hlarge]
      -- So the decimal is not a finite number
      have hmodel : (Decimal.mk digits (Int.ofNat k)).toSingle =
          Float32.ofModel (.pack (.infinity .positive)) :=
        congrArg (fun u => Float32.ofModel (.pack u)) hinfinite
      rw [hmodel] at h
      exact absurd h (by decide)

/-! ## Exact decimals -/

/-- A quotient without remainder is rounded once. -/
private theorem ofScientific_neg_of_dvd {n k : Nat} {t : Int} (hn : 0 < n) (hk : k ≤ 256)
    (hkpos : 0 < k) (ht : t ≤ 0)
    (htarget : Format.binary32.targetExponent (totalExponent n 0 - totalExponent (10 ^ k) 0) = t)
    {q : Nat} (hq : n * 2 ^ (-t).toNat = q * 10 ^ k) :
    UnpackedFloat.ofScientific .binary32 n (-(k : Int)) =
      roundWithAccuracy .binary32 .positive q t .exact := by
  have hsmall : ¬ -(k : Int) > 2 ^ Format.binary32.exponentBits := by
    show ¬ -(k : Int) > 2 ^ 8
    omega
  have hlow : ¬ -(k : Int) < -(2 ^ Format.binary32.exponentBits + (n.log2 : Int)) := by
    show ¬ -(k : Int) < -(2 ^ 8 + (n.log2 : Int))
    omega
  have hten : (0 : Nat) < 10 ^ k := by positivity
  unfold UnpackedFloat.ofScientific
  rw [dif_neg (Nat.ne_of_gt hn), if_neg hsmall, if_neg hlow, if_neg (by omega)]
  simp only [UnpackedFloat.div, divCore, Int.neg_neg, Int.toNat_natCast, Int.sub_self, htarget,
    Int.zero_sub, Int.min_eq_right ht, Nat.shiftLeft_eq, hq, Nat.mul_div_cancel _ hten,
    Nat.mul_mod_left, accuracyOfFraction]
  rfl

/-- A product has at most one bit more than its factors have together. -/
private theorem log2_mul_le {m n : Nat} (hm : 0 < m) (hn : 0 < n) :
    (m * n).log2 ≤ m.log2 + n.log2 + 1 := by
  have hmn : m * n ≠ 0 := Nat.ne_of_gt (Nat.mul_pos hm hn)
  have hbound : m * n < 2 ^ (m.log2 + n.log2 + 2) := by
    calc m * n < 2 ^ (m.log2 + 1) * 2 ^ (n.log2 + 1) :=
          Nat.mul_lt_mul'' Nat.lt_log2_self Nat.lt_log2_self
      _ = 2 ^ (m.log2 + n.log2 + 2) := by rw [← Nat.pow_add]; congr 1; omega
  have := (Nat.log2_lt hmn).2 hbound
  omega

/-- The exact decimal of a canonical number rounds to the number. -/
private theorem ofScientific_ofBinary {m : Nat} {e : Int} (hm : 0 < m)
    (h : Canonical .binary32 m e) :
    UnpackedFloat.ofScientific .binary32 (ofBinary m e).digits (ofBinary m e).exponent =
      .finite .positive m e hm := by
  cases e with
  | ofNat k =>
    -- A whole number: the mantissa scaled up by `k` bits, and by 24 more for the product
    have hscaled : 0 < m * 2 ^ k := by positivity
    have hproduct : m * 2 ^ k * 10 ^ 0 * 2 ^ 24 = m * 2 ^ (k + 24) := by
      rw [Nat.pow_zero, Nat.mul_one, Nat.mul_assoc, ← Nat.pow_add]
    have hexponent : (-24 : Int) = Int.ofNat k - ((k + 24 : Nat) : Int) := by
      rw [Int.ofNat_eq_natCast]
      omega
    show UnpackedFloat.ofScientific .binary32 (m * 2 ^ k) (0 : Nat) = _
    rw [ofScientific_natCast hscaled (Nat.zero_le 256), hproduct, hexponent]
    exact Precision.roundWithAccuracy_shifted h .positive hm (k + 24)
  | negSucc k =>
    have hlog : m.log2 < 24 := (Nat.log2_lt (Nat.ne_of_gt hm)).2 h.mantissa_lt
    have hlow : -149 ≤ Int.negSucc k := h.low
    have hfive : 0 < 5 ^ (k + 1) := by positivity
    have hten : 10 ^ (k + 1) = 5 ^ (k + 1) * 2 ^ (k + 1) := by rw [← Nat.mul_pow]
    have hbits := log2_mul_le hm hfive
    have htenLog : (10 ^ (k + 1)).log2 = (5 ^ (k + 1)).log2 + (k + 1) := by
      rw [hten, Precision.log2_mul_two_pow hfive]
    have hbelow : Format.binary32.targetExponent
        (totalExponent (m * 5 ^ (k + 1)) 0 - totalExponent (10 ^ (k + 1)) 0) ≤ Int.negSucc k := by
      show max (totalExponent (m * 5 ^ (k + 1)) 0 - totalExponent (10 ^ (k + 1)) 0 - 24) (-149) ≤ _
      unfold totalExponent
      rw [htenLog]
      omega
    -- The exponent of the quotient is `j` below that of the number, so no bit is shifted out
    obtain ⟨j, hj⟩ := Int.le.dest hbelow
    have htarget : Format.binary32.targetExponent
        (totalExponent (m * 5 ^ (k + 1)) 0 - totalExponent (10 ^ (k + 1)) 0) =
          Int.negSucc k - (j : Int) := by omega
    have hquotient : m * 5 ^ (k + 1) * 2 ^ (-(Int.negSucc k - (j : Int))).toNat =
        m * 2 ^ j * 10 ^ (k + 1) := by
      have hup : (-(Int.negSucc k - (j : Int))).toNat = k + 1 + j := by omega
      rw [hup, hten, Nat.pow_add]
      ring
    show UnpackedFloat.ofScientific .binary32 (m * 5 ^ (k + 1)) (-((k + 1 : Nat) : Int)) = _
    rw [ofScientific_neg_of_dvd (by positivity) (by omega) (by omega) (by omega) htarget hquotient]
    exact Precision.roundWithAccuracy_shifted h .positive hm j

/-! ## Numbers of either sign -/

/-- The sign of a decoded number. -/
private def signOf : UnpackedFloat → Sign
  | .notANumber => .positive
  | .infinity sign => sign
  | .zero sign => sign
  | .finite sign _ _ _ => sign

-- Taking the magnitude is the same on a number and on what is decoded from it
private theorem unpack_abs (x : Float32) : x.abs.toModel.unpack = x.toModel.unpack.abs :=
  @Precision.unpack_pack_abs .binary32 x.toModel.toBits.toBitVec (by decide)

/-- What a finite number is decoded to. -/
private theorem zero_or_finite {x : Float32} (hx : x.isFinite) :
    (∃ sign, x.toModel.unpack = .zero sign) ∨
      ∃ sign m e hm, x.toModel.unpack = .finite sign m e hm := by
  have hfinite : x.toModel.unpack.isFinite := hx
  cases hu : x.toModel.unpack with
  | notANumber => simp [hu, UnpackedFloat.isFinite] at hfinite
  | infinity sign => simp [hu, UnpackedFloat.isFinite] at hfinite
  | zero sign => exact Or.inl ⟨sign, rfl⟩
  | finite sign m e hm => exact Or.inr ⟨sign, m, e, hm, rfl⟩

/-- A number is its magnitude with its sign. -/
private theorem abs_signed {x : Float32} (hx : x.isFinite) :
    (if isMinus (signOf x.toModel.unpack) then -x.abs else x.abs) = x := by
  have hpacked : Float32.ofModel (.pack x.toModel.unpack) = x :=
    Float32.toBits_inj.1 (UInt32.toBitVec_inj.1 (pack_unpack_of_valid x.toModel.valid))
  have hneg : -x.abs = Float32.ofModel (.pack x.toModel.unpack.abs.neg) :=
    congrArg (fun u : UnpackedFloat => Float32.ofModel (.pack u.neg)) (unpack_abs x)
  have habs : x.abs = Float32.ofModel (.pack x.toModel.unpack.abs) := rfl
  rw [hneg, habs]
  conv => rhs; rw [← hpacked]
  -- Taking the sign off and putting it back on leaves what is packed as it was
  rcases zero_or_finite hx with ⟨sign, hu⟩ | ⟨sign, m, e, hm, hu⟩
  · rw [hu]
    cases sign <;> rfl
  · rw [hu]
    cases sign <;> rfl

/-- The magnitude of a finite number is finite. -/
private theorem isFinite_abs {x : Float32} (hx : x.isFinite) : x.abs.isFinite := by
  show x.abs.toModel.unpack.isFinite
  rw [unpack_abs]
  rcases zero_or_finite hx with ⟨sign, hu⟩ | ⟨sign, m, e, hm, hu⟩
  · rw [hu]
    rfl
  · rw [hu]
    rfl

/-! ## Reading back -/

/-- The exact decimal of a number rounds to its magnitude. -/
theorem toSingle_ofBinary {x : Float32} {sign : Sign} {m : Nat} {e : Int} {hm : 0 < m}
    (hx : x.toModel.unpack = .finite sign m e hm) : (ofBinary m e).toSingle = x.abs := by
  have hexact := ofScientific_ofBinary hm (Precision.canonical_unpack hx)
  have habs : x.abs = Float32.ofModel (.pack x.toModel.unpack.abs) := rfl
  rw [habs, hx]
  exact congrArg (fun u => Float32.ofModel (.pack u)) hexact

/-- The decimal that is chosen rounds to the magnitude of the number, whether it was found or the
    exact one had to do. -/
private theorem toSingle_shortest {x : Float32} {sign : Sign} {m : Nat} {e : Int} {hm : 0 < m}
    (hx : x.toModel.unpack = .finite sign m e hm) :
    (shortest (readsBackSingle x) m e).toSingle = x.abs := by
  unfold shortest
  cases hfound : (List.range 60).findSome? fun (i : Nat) =>
      neighbour? (readsBackSingle x) m e (gridAbove m e - (i : Int)) with
  | none => exact toSingle_ofBinary hx
  | some d =>
    -- What was found passed the test
    obtain ⟨i, -, hi⟩ := List.exists_of_findSome?_eq_some hfound
    have hback : readsBackSingle x d := List.find?_some hi
    exact Float32.toBits_inj.1 (by simpa [readsBackSingle] using hback)

/-- A finite number is written as its sign and a decimal that rounds to its magnitude. -/
private theorem exists_writeSingle {x : Float32} (hx : x.isFinite) :
    ∃ d, writeSingle x = signText (signOf x.toModel.unpack) ++ positional d ∧
      d.toSingle = x.abs := by
  unfold writeSingle
  rcases zero_or_finite hx with ⟨sign, hu⟩ | ⟨sign, m, e, hm, hu⟩
  · -- Both zeros have the magnitude of the decimal zero
    have habs : x.abs = Float32.ofModel (.pack x.toModel.unpack.abs) := rfl
    rw [hu] at habs ⊢
    exact ⟨⟨0, 0⟩, rfl, by rw [habs]; rfl⟩
  · have hd := toSingle_shortest hu
    rw [hu]
    exact ⟨_, rfl, hd⟩

/-- A finite number is read back from its shortest decimal, bit for bit. -/
theorem readSingle?_writeSingle {x : Float32} (hx : x.isFinite) :
    Numeral.readSingle? (writeSingle x) = some x := by
  obtain ⟨d, hwritten, hd⟩ := exists_writeSingle hx
  have hread := read?_signText_append (signOf x.toModel.unpack)
    (readDecimal?_positional_expanded d)
  have hvalue : d.expanded.toSingle = x.abs := by
    rw [toSingle_expanded (by rw [hd]; exact isFinite_abs hx), hd]
  rw [hwritten, Numeral.readSingle?, hread]
  simp only [hvalue, abs_signed hx, hx, ↓reduceIte]

/-- A finite number is written with digits, a point and a minus. -/
theorem isDigit_or_mem_writeSingle {x : Float32} (hx : x.isFinite) {c : Char}
    (hc : c ∈ writeSingle x) : c.isDigit ∨ c ∈ ['.', '-'] := by
  obtain ⟨d, hwritten, -⟩ := exists_writeSingle hx
  rw [hwritten, List.mem_append] at hc
  rcases hc with hsign | hnumber
  · cases hs : signOf x.toModel.unpack with
    | positive => simp [hs, signText] at hsign
    | negative => right; simp_all [signText]
  · rcases isDigit_or_eq_of_mem_positional hnumber with hdigit | hpoint
    · exact Or.inl hdigit
    · right; simp [hpoint]

end Stencil.Decimal
