import Stencil.Decimal.Basic

/-! # Fixed places

A number written with a fixed count of digits after the point: the exact binary value is rounded
once, to the nearest multiple of the last place, and a half goes to the even neighbour.  The sign
of the number is kept even when every digit shown is zero.
-/

namespace Stencil.Decimal

open Float.Model (UnpackedFloat)
open Float.Model.UnpackedFloat (Sign)

/-- The quotient rounded to the nearest natural number, a half to the even one. -/
def roundDiv (num den : Nat) : Nat :=
  let q := num / den
  let r := num % den
  if 2 * r < den then q
  else if den < 2 * r then q + 1
  else q + q % 2

/-- A rounded quotient is off by at most one half. -/
theorem roundDiv_close (num : Nat) {den : Nat} (h : 0 < den) :
    2 * num ≤ 2 * (roundDiv num den * den) + den ∧ 2 * (roundDiv num den * den) ≤ 2 * num + den := by
  have whole : den * (num / den) + num % den = num := Nat.div_add_mod num den
  have small : num % den < den := Nat.mod_lt num h
  unfold roundDiv
  generalize num / den = q at *
  generalize num % den = r at *
  subst whole
  rcases Nat.mod_two_eq_zero_or_one q with even | odd
  · simp only [even]
    split
    · rw [Nat.mul_comm q]; omega
    · split
      · rw [Nat.add_mul, Nat.mul_comm q]; omega
      · rw [Nat.add_mul, Nat.mul_comm q]; omega
  · simp only [odd]
    split
    · rw [Nat.mul_comm q]; omega
    · split
      · rw [Nat.add_mul, Nat.mul_comm q]; omega
      · rw [Nat.add_mul, Nat.mul_comm q]; omega

/-- The value `m * 2 ^ e` in units of `10 ^ (-places)`, rounded. -/
def fixedUnits (places m : Nat) (e : Int) : Nat :=
  match e with
  | .ofNat k => m * Nat.pow 2 k * Nat.pow 10 places
  | .negSucc k => roundDiv (m * Nat.pow 10 places) (Nat.pow 2 (k + 1))

/-- The text of a sign: nothing for a plus. -/
def signText : Sign → List Char
  | .positive => []
  | .negative => ['-']

/-- A decoded value with `places` digits after the point. -/
def fixedChars (places : Nat) : UnpackedFloat → List Char
  | .notANumber => "NaN".toList
  | .infinity sign => signText sign ++ "inf".toList
  | .zero sign => signText sign ++ positional ⟨0, -places⟩
  | .finite sign m e _ => signText sign ++ positional ⟨fixedUnits places m e, -places⟩

/-- A single precision number with `places` digits after the point. -/
def fixed (places : Nat) (x : Float32) : String :=
  String.ofList (fixedChars places x.toModel.unpack)

end Stencil.Decimal
