import Stencil.Proofs.Precision.Nearest
import Stencil.Proofs.Precision.Whole

/-!
# What signs and order leave alone

Rounding treats a number and its negative alike, so a whole number and its negative have the same
magnitude in single precision also where they are rounded.  A square does not depend on the sign, and
a sum not on the order of its two summands.  All this holds of the stored numbers themselves,
infinities and NaN included.

## Key results

- `abs_mul_abs`: the square of a magnitude
- `add_comm_unpacked` / `add_comm_single`: summands can be exchanged
- `abs_ofInt_congr`: whole numbers of the same size have the same magnitude
-/

namespace Stencil.Precision

open Float.Model (Format UnpackedFloat)
open Float.Model.UnpackedFloat

/-! ## Squares -/

/-- The magnitude of a number is decoded as the magnitude of what the number is decoded as. -/
theorem unpack_abs (x : Float32) : x.abs.toModel.unpack = x.toModel.unpack.abs := by
  show unpack .binary32 (pack .binary32 (unpack .binary32 _).abs) = _
  exact unpack_pack_abs _ (by decide)

private theorem mul_abs_abs (spec : Format) (u : UnpackedFloat) :
    mul spec u.abs u.abs = mul spec u u := by
  cases u with
  | notANumber => rfl
  | infinity sign => cases sign <;> rfl
  | zero sign => cases sign <;> rfl
  | finite sign m e hm => cases sign <;> rfl

/-- The square of a magnitude is the square of the number. -/
theorem abs_mul_abs (x : Float32) : x.abs * x.abs = x * x := by
  have hmul : ∀ y : Float32,
      y * y = .ofModel (.pack (mul .binary32 y.toModel.unpack y.toModel.unpack)) := fun _ => rfl
  rw [hmul, hmul, unpack_abs, mul_abs_abs]

/-! ## Sums -/

/-- Decoded numbers can be added in either order. -/
theorem add_comm_unpacked (spec : Format) (u v : UnpackedFloat) : add spec u v = add spec v u := by
  cases u with
  | notANumber => cases v <;> rfl
  | infinity s₁ =>
    cases v with
    | infinity s₂ => cases s₁ <;> cases s₂ <;> rfl
    | _ => rfl
  | zero s₁ =>
    cases v with
    | zero s₂ => cases s₁ <;> cases s₂ <;> rfl
    | _ => rfl
  | finite s₁ m₁ e₁ h₁ =>
    cases v with
    | finite s₂ m₂ e₂ h₂ =>
      -- The counts of the same units are added
      unfold add decreaseExponent
      dsimp only
      rw [min_comm, add_comm]
    | _ => rfl

/-- The two summands of a sum can be exchanged. -/
theorem add_comm_single (x y : Float32) : x + y = y + x := by
  have hadd : ∀ a b : Float32,
      a + b = .ofModel (.pack (add .binary32 a.toModel.unpack b.toModel.unpack)) := fun _ _ => rfl
  rw [hadd, hadd, add_comm_unpacked]

/-! ## Rounding -/

/-- The units that are stored do not depend on the sign. -/
private theorem Stored.abs {spec : Format} {sign : Sign} {n : ℕ} {t : ℤ} {u : UnpackedFloat}
    (h : Stored spec sign n t u) : Stored spec .positive n t u.abs := by
  cases u with
  | notANumber => exact h
  | infinity s => exact h
  | zero s => exact ⟨rfl, h.2⟩
  | finite s m e hm => exact ⟨rfl, h.2⟩

private theorem abs_round (spec : Format) (sign : Sign) (m : ℕ) (e : ℤ) :
    (UnpackedFloat.round spec sign m e).abs = UnpackedFloat.round spec .positive m e := by
  unfold UnpackedFloat.round roundWithAccuracy
  dsimp only
  split
  · rfl
  · rfl

/-- The magnitude of a rounded number is the rounded magnitude, also where it is too large. -/
private theorem abs_unpack_pack_round {spec : Format} (hspec : 2 ≤ spec.exponentBits) (sign : Sign)
    {m : ℕ} (hm : 0 < m) (e : ℤ) :
    (unpack spec (pack spec (UnpackedFloat.round spec sign m e))).abs =
      unpack spec (pack spec (UnpackedFloat.round spec .positive m e)) := by
  obtain ⟨n, t, -, -, hstored⟩ := round_nearest spec sign hm e
  rw [← abs_round spec sign, hstored.unpack_pack hspec, hstored.abs.unpack_pack hspec]
  split
  · rfl
  · rfl

/-- Whole numbers of the same size have the same magnitude in single precision. -/
theorem abs_ofInt_congr {a b : ℤ} (h : a.natAbs = b.natAbs) : (ofInt a).abs = (ofInt b).abs := by
  have habs : ∀ x : Float32, x.abs = .ofModel (.pack x.toModel.unpack.abs) := fun _ => rfl
  have hrounded : ∀ z : ℤ, z ≠ 0 → (ofInt z).toModel.unpack.abs =
      unpack .binary32 (pack .binary32 (UnpackedFloat.round .binary32 .positive z.natAbs 0)) := by
    intro z hz
    rw [← abs_unpack_pack_round (by decide) (signOf z) (by omega), ← ofInt_eq_round hz]
    rfl
  by_cases ha : a = 0
  · obtain rfl : b = a := by omega
    rfl
  · rw [habs, habs, hrounded a ha, hrounded b (by omega), h]

end Stencil.Precision
