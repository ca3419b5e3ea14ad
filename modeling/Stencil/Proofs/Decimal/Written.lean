import Mathlib
import Stencil.Decimal.Fixed
import Stencil.Decimal.Numeral
import Stencil.Decimal.Shortest

/-!
# Decimals as they are written

The characters of a number written with fixed places, and what reading such a number gives back.

## Key results

- `not_mem_fixed`: which characters a written number does not hold
- `readDecimal?_positional`: a decimal with digits after its point is read back unchanged
- `read?_fixedChars`: a number with fixed places reads as its rounded value
- `read?_fixed_decimal_iff`: a number with fixed places is a decimal when it is finite
-/

namespace Stencil.Decimal

open Float.Model (UnpackedFloat)
open Float.Model.UnpackedFloat (Sign)

/-! ## Characters -/

/-- The digits behind a point are digits. -/
theorem isDigit_of_mem_fractionDigits {places n : Nat} {c : Char}
    (hc : c ∈ fractionDigits places n) : c.isDigit := by
  rw [fractionDigits, List.mem_append] at hc
  rcases hc with hzero | hdigit
  · rw [List.eq_of_mem_replicate hzero]
    decide
  · exact Nat.isDigit_of_mem_toDigits (by decide) (by decide) hdigit

/-- A decimal is written with digits and a point. -/
theorem isDigit_or_eq_of_mem_positional {d : Decimal} {c : Char} (hc : c ∈ positional d) :
    c.isDigit ∨ c = '.' := by
  unfold positional at hc
  split at hc
  · rw [List.mem_append] at hc
    left
    rcases hc with hdigit | hzero
    · exact Nat.isDigit_of_mem_toDigits (by decide) (by decide) hdigit
    · rw [List.eq_of_mem_replicate hzero]
      decide
  · dsimp only at hc
    rw [List.mem_append, List.mem_cons] at hc
    rcases hc with hdigit | hpoint | hfraction
    · exact Or.inl (Nat.isDigit_of_mem_toDigits (by decide) (by decide) hdigit)
    · exact Or.inr hpoint
    · exact Or.inl (isDigit_of_mem_fractionDigits hfraction)

/-- What a written number can hold besides digits. -/
def marks : List Char := "-.NaNinf".toList

private theorem mem_marks_of_mem_signText {sign : Sign} {c : Char} (hc : c ∈ signText sign) :
    c ∈ marks := by
  cases sign with
  | positive => exact absurd hc List.not_mem_nil
  | negative =>
    rw [List.mem_singleton.1 hc]
    decide

/-- A decimal with a sign is written with digits and marks. -/
private theorem isDigit_or_mem_marks_of_signed {sign : Sign} {d : Decimal} {c : Char}
    (hc : c ∈ signText sign ++ positional d) : c.isDigit ∨ c ∈ marks := by
  rcases List.mem_append.1 hc with hsign | hnumber
  · exact Or.inr (mem_marks_of_mem_signText hsign)
  · rcases isDigit_or_eq_of_mem_positional hnumber with hdigit | rfl
    · exact Or.inl hdigit
    · exact Or.inr (by decide)

/-- An infinity is written with marks. -/
private theorem mem_marks_of_infinity {sign : Sign} {c : Char}
    (hc : c ∈ signText sign ++ "inf".toList) : c ∈ marks := by
  have hsub : "inf".toList ⊆ marks := by decide
  rcases List.mem_append.1 hc with hsign | hword
  · exact mem_marks_of_mem_signText hsign
  · exact hsub hword

/-- A number with fixed places is written with digits and marks. -/
theorem isDigit_or_mem_marks {places : Nat} {u : UnpackedFloat} {c : Char}
    (hc : c ∈ fixedChars places u) : c.isDigit ∨ c ∈ marks := by
  cases u with
  | notANumber =>
    have hsub : "NaN".toList ⊆ marks := by decide
    exact Or.inr (hsub hc)
  | infinity sign => exact Or.inr (mem_marks_of_infinity hc)
  | zero sign => exact isDigit_or_mem_marks_of_signed hc
  | finite sign m e _ => exact isDigit_or_mem_marks_of_signed hc

/-- A number with the fewest digits is written with digits and marks. -/
theorem isDigit_or_mem_marks_of_shortest {readsBack : Decimal → Bool} {u : UnpackedFloat} {c : Char}
    (hc : c ∈ shortestChars readsBack u) : c.isDigit ∨ c ∈ marks := by
  cases u with
  | notANumber =>
    have hsub : "NaN".toList ⊆ marks := by decide
    exact Or.inr (hsub hc)
  | infinity sign => exact Or.inr (mem_marks_of_infinity hc)
  | zero sign =>
    rcases List.mem_append.1 hc with hsign | hzero
    · exact Or.inr (mem_marks_of_mem_signText hsign)
    · exact Or.inl (by rw [List.mem_singleton.1 hzero]; decide)
  | finite sign m e _ => exact isDigit_or_mem_marks_of_signed hc

/-- No other character stands in a written number. -/
theorem not_mem_fixed {places : Nat} {x : Float32} {c : Char} (hdigit : c.isDigit = false)
    (hmark : c ∉ marks) : c ∉ (fixed places x).toList := by
  rw [fixed, String.toList_ofList]
  intro hc
  rcases isDigit_or_mem_marks hc with h | h
  · rw [hdigit] at h
    exact absurd h (by decide)
  · exact hmark h

/-- Something is written for every number. -/
theorem fixed_ne_nil (places : Nat) (x : Float32) : (fixed places x).toList ≠ [] := by
  rw [fixed, String.toList_ofList]
  have hpositional : ∀ d, positional d ≠ [] := by
    intro d
    unfold positional
    split
    · simp [Nat.toDigits_ne_nil]
    · simp
  cases x.toModel.unpack with
  | notANumber => exact List.cons_ne_nil _ _
  | infinity sign => exact List.append_ne_nil_of_right_ne_nil _ (List.cons_ne_nil _ _)
  | zero sign => exact List.append_ne_nil_of_right_ne_nil _ (hpositional _)
  | finite sign m e _ => exact List.append_ne_nil_of_right_ne_nil _ (hpositional _)

/-! ## Reading back -/

/-- There are as many digits behind a point as there are places. -/
theorem length_fractionDigits {places n : Nat} (hplaces : 0 < places) (h : n < 10 ^ places) :
    (fractionDigits places n).length = places := by
  have hlength : (Nat.toDigits 10 n).length ≤ places :=
    (Nat.length_toDigits_le_iff (by decide) hplaces).2 h
  rw [fractionDigits, List.length_append, List.length_replicate]
  omega

/-- The digits of a decimal with a point, read as one number, are the digits of the decimal. -/
private theorem ofDigitChars_toDigits_append {places n : Nat} (hplaces : 0 < places) :
    Nat.ofDigitChars 10
      (Nat.toDigits 10 (n / 10 ^ places) ++ fractionDigits places (n % 10 ^ places)) 0 = n := by
  have hsmall : n % 10 ^ places < 10 ^ places := Nat.mod_lt _ (Nat.pow_pos (by decide))
  have hlength := length_fractionDigits hplaces hsmall
  -- The leading zeros of the fraction do not count
  have hfraction : Nat.ofDigitChars 10 (fractionDigits places (n % 10 ^ places)) 0 =
      n % 10 ^ places := by
    rw [fractionDigits, Nat.ofDigitChars_append, Nat.ofDigitChars_replicate_zero, Nat.mul_zero,
      Nat.ofDigitChars_ten_toDigits]
  rw [Nat.ofDigitChars_append, Nat.ofDigitChars_ten_toDigits, Nat.ofDigitChars_eq_ofDigitChars_zero,
    hlength, hfraction]
  exact Nat.div_add_mod n (10 ^ places)

/-- Digits are taken up to what is not a digit. -/
private theorem span_digits {digits : List Char} (hdigits : ∀ d ∈ digits, d.isDigit) {c : Char}
    (hc : c.isDigit = false) (rest : List Char) :
    (digits ++ c :: rest).takeWhile Char.isDigit = digits ∧
      (digits ++ c :: rest).dropWhile Char.isDigit = c :: rest := by
  rw [List.takeWhile_append_of_pos hdigits, List.dropWhile_append_of_pos hdigits]
  simp [hc]

/-- A decimal with a point is written as its whole part, the point and its fraction. -/
private theorem positional_eq {places : Nat} (hplaces : 0 < places) (n : Nat) :
    positional ⟨n, -(places : Int)⟩ =
      Nat.toDigits 10 (n / 10 ^ places) ++ '.' :: fractionDigits places (n % 10 ^ places) := by
  obtain ⟨k, rfl⟩ := Nat.exists_eq_succ_of_ne_zero (Nat.ne_of_gt hplaces)
  rfl

/-- A decimal with digits after its point is read back unchanged. -/
theorem readDecimal?_positional {places : Nat} (hplaces : 0 < places) (n : Nat) :
    Numeral.readDecimal? (positional ⟨n, -(places : Int)⟩) = some ⟨n, -(places : Int)⟩ := by
  have hwhole : ∀ d ∈ Nat.toDigits 10 (n / 10 ^ places), d.isDigit := fun d hd =>
    Nat.isDigit_of_mem_toDigits (by decide) (by decide) hd
  have hfraction : ∀ d ∈ fractionDigits places (n % 10 ^ places), d.isDigit := fun d hd =>
    isDigit_of_mem_fractionDigits hd
  have hlength : (fractionDigits places (n % 10 ^ places)).length = places :=
    length_fractionDigits hplaces (Nat.mod_lt _ (Nat.pow_pos (by decide)))
  have hpoint : '.'.isDigit = false := by decide
  obtain ⟨htake, hdrop⟩ := span_digits hwhole hpoint (fractionDigits places (n % 10 ^ places))
  have hne : (Nat.toDigits 10 (n / 10 ^ places)).isEmpty = false :=
    List.isEmpty_eq_false_iff.2 Nat.toDigits_ne_nil
  -- The reader finds the whole part, the point, the fraction, and then the end
  rw [positional_eq hplaces, Numeral.readDecimal?, htake, hdrop, Numeral.readFraction,
    List.takeWhile_eq_self_iff.2 hfraction, List.dropWhile_eq_nil_iff.2 hfraction]
  simp [hne, Numeral.readExponent?, ofDigitChars_toDigits_append hplaces, hlength]

/-- Whether a sign is a minus. -/
def isMinus : Sign → Bool
  | .positive => false
  | .negative => true

/-- A decimal is written with a digit at its start. -/
theorem exists_digit_cons (d : Decimal) : ∃ c rest, positional d = c :: rest ∧ c.isDigit := by
  have hdigit : ∀ n, ∃ c rest, Nat.toDigits 10 n = c :: rest ∧ c.isDigit := by
    intro n
    obtain ⟨c, rest, hcons⟩ := List.exists_cons_of_ne_nil (Nat.toDigits_ne_nil (n := n) (b := 10))
    refine ⟨c, rest, hcons, Nat.isDigit_of_mem_toDigits (b := 10) (n := n) (by decide) (by decide) ?_⟩
    rw [hcons]
    exact List.mem_cons_self
  unfold positional
  split
  · obtain ⟨c, rest, hcons, hc⟩ := hdigit d.digits
    exact ⟨c, _, by rw [hcons, List.cons_append], hc⟩
  · dsimp only
    obtain ⟨c, rest, hcons, hc⟩ := hdigit (d.digits / Nat.pow 10 (_ + 1))
    exact ⟨c, _, by rw [hcons, List.cons_append], hc⟩

/-- A written decimal with a sign is read with that sign. -/
theorem read?_signText_append {d e : Decimal} (sign : Sign)
    (h : Numeral.readDecimal? (positional d) = some e) :
    Numeral.read? (signText sign ++ positional d) = some (.decimal (isMinus sign) e) := by
  cases sign with
  | negative =>
    rw [signText, List.singleton_append, Numeral.read?, Numeral.readUnsigned?, h]
    rfl
  | positive =>
    -- The first character is a digit, so no sign is read off.
    obtain ⟨c, rest, hcons, hc⟩ := exists_digit_cons d
    rw [hcons] at h
    rw [signText, List.nil_append, hcons]
    unfold Numeral.read?
    split
    · rename_i heq
      obtain rfl := (List.cons.inj heq).1
      exact absurd hc (by decide)
    · rename_i heq
      obtain rfl := (List.cons.inj heq).1
      exact absurd hc (by decide)
    · rw [Numeral.readUnsigned?, h]
      rfl

/-- A written decimal with a sign is read as that decimal with that sign. -/
theorem read?_signed {places : Nat} (hplaces : 0 < places) (sign : Sign) (n : Nat) :
    Numeral.read? (signText sign ++ positional ⟨n, -(places : Int)⟩) =
      some (.decimal (isMinus sign) ⟨n, -(places : Int)⟩) :=
  read?_signText_append sign (readDecimal?_positional hplaces n)

/-- A number with fixed places reads as its rounded value. -/
theorem read?_fixedChars {places : Nat} (hplaces : 0 < places) (sign : Sign) {m : Nat} (e : Int)
    (hm : 0 < m) :
    Numeral.read? (fixedChars places (.finite sign m e hm)) =
      some (.decimal (isMinus sign) ⟨fixedUnits places m e, -(places : Int)⟩) :=
  read?_signed hplaces sign _

/-- A number with fixed places is a decimal numeral when it is finite. -/
theorem read?_fixed_decimal_iff {places : Nat} (hplaces : 0 < places) (x : Float32) :
    (∃ negative d, Numeral.read? (fixed places x).toList = some (.decimal negative d)) ↔
      x.isFinite := by
  have hfinite : x.isFinite = x.toModel.unpack.isFinite := rfl
  rw [hfinite, fixed, String.toList_ofList]
  cases x.toModel.unpack with
  | notANumber =>
    have hread : Numeral.read? (fixedChars places .notANumber) = some .notANumber := rfl
    rw [hread]
    simp [UnpackedFloat.isFinite]
  | infinity sign =>
    have hread : ∃ negative, Numeral.read? (fixedChars places (.infinity sign)) =
        some (.infinity negative) := by
      cases sign
      · exact ⟨true, rfl⟩
      · exact ⟨false, rfl⟩
    obtain ⟨negative, hread⟩ := hread
    rw [hread]
    simp [UnpackedFloat.isFinite]
  | zero sign => exact iff_of_true ⟨_, _, read?_signed hplaces sign 0⟩ rfl
  | finite sign m e hm => exact iff_of_true ⟨_, _, read?_fixedChars hplaces sign e hm⟩ rfl

end Stencil.Decimal
