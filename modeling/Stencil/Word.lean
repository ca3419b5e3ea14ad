import Stencil.Fault

/-! # Machine words

Dimensions and indices are natural numbers below `2 ^ 64`; displacements are integers that fit in
a signed word of 64 bits.  Arithmetic that must stay inside a word is done in `Nat` or `Int` and
then checked, so that a result, when there is one, is the exact one.
-/

namespace Stencil.Word

/-- The number of values of an unsigned word, `2 ^ 64`. -/
def size : Nat := 0x10000000000000000

/-- The first integer above every signed word, `2 ^ 63`. -/
def signedLimit : Int := 0x8000000000000000

/-- Reads an unsigned word as a signed one: the upper half of the range stands for negative
numbers. -/
def toSigned (n : Nat) : Int := (n : Int).bmod size

/-- An integer, if a signed word holds it. -/
def checked (z : Int) : Except Fault Int :=
  if -signedLimit ≤ z ∧ z < signedLimit then .ok z else .error .overflow

/-- The product of two unsigned words, if an unsigned word holds it. -/
def product (a b : Nat) : Except Fault Nat :=
  if a * b < size then .ok (a * b) else .error .overflow

/-- The sum of two unsigned words, if an unsigned word holds it. -/
def sum (a b : Nat) : Except Fault Nat :=
  if a + b < size then .ok (a + b) else .error .overflow

/-- Below half the range both readings of a word agree. -/
theorem toSigned_of_lt {n : Nat} (h : (n : Int) < signedLimit) : toSigned n = n := by
  unfold toSigned size
  unfold signedLimit at h
  rw [Int.bmod_eq_of_le] <;> omega

/-- From half the range on a word is read as a negative number. -/
theorem toSigned_of_ge {n : Nat} (h : signedLimit ≤ n) (hlt : n < size) :
    toSigned n = n - size := by
  unfold toSigned size Int.bmod
  unfold signedLimit at h
  unfold size at hlt
  dsimp only
  omega

theorem checked_of_bounds {z : Int} (lower : -signedLimit ≤ z) (upper : z < signedLimit) :
    checked z = .ok z := by
  simp [checked, lower, upper]

/-- What lies below every signed word is refused. -/
theorem checked_of_lt {z : Int} (h : z < -signedLimit) : checked z = .error .overflow :=
  if_neg fun bounds => absurd bounds.1 (Int.not_le.2 h)

theorem product_of_lt {a b : Nat} (h : a * b < size) : product a b = .ok (a * b) := by
  simp [product, h]

theorem sum_of_lt {a b : Nat} (h : a + b < size) : sum a b = .ok (a + b) := by
  simp [sum, h]

/-- A product is the exact one. -/
theorem product_eq_ok_iff {a b c : Nat} : product a b = .ok c ↔ a * b = c ∧ c < size := by
  unfold product
  split
  · rename_i h
    simp only [Except.ok.injEq]
    exact ⟨fun same => ⟨same, same ▸ h⟩, fun both => both.1⟩
  · rename_i h
    simp only [reduceCtorEq, false_iff]
    exact fun both => h (both.1 ▸ both.2)

/-- A checked integer is the integer. -/
theorem eq_of_checked_eq_ok {y z : Int} (h : checked z = .ok y) : y = z := by
  unfold checked at h
  split at h
  · exact (Except.ok.inj h).symm
  · exact absurd h (by simp)

/-- No reading of a word is above the word. -/
theorem toSigned_le (n : Nat) : toSigned n ≤ n := by
  unfold toSigned size Int.bmod
  dsimp only
  omega

end Stencil.Word
