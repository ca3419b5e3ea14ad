import Stencil.Proofs.Precision.Closeness
import Stencil.Proofs.Precision.Symmetry

/-!
# Zero and one

A zero of either sign adds nothing, and a finite number times a zero is a zero; a number times one is
the number.  None of this rounds, so a sum in which all terms but one are zeros has the value of that
term, wherever it stands.  Only the sign of a zero can change on the way, and the value does not see
it.

## Key results

- `decodedValue?_add_of_zero`: a zero that is added leaves the value, in any format
- `value?_add_of_zero` / `value?_mul_of_zero` / `value?_mul_one`: zero and one in single precision
- `value?_foldl_add_single`: a sum with one term
-/

namespace Stencil.Precision

open Float.Model (Format UnpackedFloat)
open Float.Model.UnpackedFloat

/-! ## Zero -/

/-- A number of value zero is decoded as a zero of some sign. -/
theorem exists_zero_of_decodedValue? {u : UnpackedFloat} (h : decodedValue? u = some 0) :
    ∃ sign, u = .zero sign := by
  rcases decodedValue?_eq_some h with ⟨sign, hu, -⟩ | ⟨sign, m, e, hm, hu, hzero⟩
  · exact ⟨sign, hu⟩
  · have hmagnitude := magnitude_pos hm e
    rw [← abs_apply sign, ← hzero, abs_zero] at hmagnitude
    exact absurd hmagnitude (lt_irrefl 0)

/-- What is added to a zero is left, unless it is a zero itself. -/
theorem zero_add_of_ne_zero (spec : Format) {u : UnpackedFloat} (h : ∀ s, u ≠ .zero s) (sign : Sign) :
    add spec (.zero sign) u = u := by
  cases u with
  | notANumber => rfl
  | infinity s => rfl
  | zero s => exact absurd rfl (h s)
  | finite s m e hm => rfl

/-- A zero that is added leaves the value of what was unpacked. -/
theorem decodedValue?_add_of_zero {spec : Format} (hspec : 2 ≤ spec.exponentBits)
    {bits : BitVec spec.numBits} {u : UnpackedFloat} {v : ℚ}
    (hbits : decodedValue? (unpack spec bits) = some v) (hu : decodedValue? u = some 0) :
    decodedValue? (unpack spec (pack spec (add spec (unpack spec bits) u))) = some v := by
  obtain ⟨s₂, rfl⟩ := exists_zero_of_decodedValue? hu
  by_cases hzero : ∃ s₁, unpack spec bits = .zero s₁
  · -- A sum of two zeros is a zero
    obtain ⟨s₁, hs₁⟩ := hzero
    obtain ⟨sign, hsum⟩ : ∃ sign, add spec (.zero s₁) (.zero s₂) = .zero sign := by
      cases s₁ <;> cases s₂ <;> exact ⟨_, rfl⟩
    rw [hs₁] at hbits ⊢
    rw [hsum]
    exact (decodedValue?_packedZero spec sign).trans hbits
  · rw [add_comm_unpacked, zero_add_of_ne_zero spec (not_exists.1 hzero), unpack_pack_unpack _ hspec]
    exact hbits

variable {x y : Float32} {v : ℚ}

/-- A zero that is added leaves the value of a number. -/
theorem value?_add_of_zero (hx : value? x = some v) (hy : value? y = some 0) :
    value? (x + y) = some v := by
  have hspec : 2 ≤ Format.binary32.exponentBits := by decide
  exact decodedValue?_add_of_zero hspec hx hy

/-- A number that is added to a zero keeps its value. -/
theorem value?_zero_add (hx : value? x = some 0) (hy : value? y = some v) :
    value? (x + y) = some v := by
  rw [add_comm_single]
  exact value?_add_of_zero hy hx

/-- A finite number times a zero is a zero. -/
theorem value?_mul_of_zero (hx : value? x = some v) (hy : value? y = some 0) :
    value? (x * y) = some 0 := by
  have hmul : (x * y).toModel.unpack = unpack .binary32 (pack .binary32
      (mul .binary32 x.toModel.unpack y.toModel.unpack)) := rfl
  obtain ⟨s₂, hu₂⟩ := exists_zero_of_decodedValue? hy
  rw [value?, hmul, hu₂]
  rcases decodedValue?_eq_some hx with ⟨s₁, hu₁, rfl⟩ | ⟨s₁, m₁, e₁, h₁, hu₁, -⟩
  · rw [hu₁]
    exact decodedValue?_packedZero .binary32 (s₁ * s₂)
  · rw [hu₁]
    exact decodedValue?_packedZero .binary32 (s₁ * s₂)

/-! ## One -/

/-- A number times one keeps its value. -/
theorem value?_mul_one (hx : value? x = some v) : value? (x * ofInt 1) = some v := by
  have hmul : (x * ofInt 1).toModel.unpack = unpack .binary32 (pack .binary32
      (mul .binary32 x.toModel.unpack (ofInt 1).toModel.unpack)) := rfl
  have hone : (ofInt 1).toModel.unpack = .finite .positive (2 ^ 23) (-23) (by decide) := rfl
  have hagain : unpack .binary32 (pack .binary32 x.toModel.unpack) = x.toModel.unpack :=
    unpack_pack_unpack _ (by decide)
  have hproduct : mul .binary32 x.toModel.unpack (ofInt 1).toModel.unpack = x.toModel.unpack := by
    rw [hone]
    rcases decodedValue?_eq_some hx with ⟨s, hu, -⟩ | ⟨s, m, e, hm, hu, -⟩
    · rw [hu]
      cases s <;> rfl
    · -- The mantissa is scaled up by a power of two, and rounded back
      have hsign : s * .positive = s := by cases s <;> rfl
      rw [hu]
      show roundWithAccuracy .binary32 (s * .positive) (m * 2 ^ 23) (e - (23 : ℕ)) .exact = _
      rw [hsign]
      exact roundWithAccuracy_shifted (canonical_unpack hu) s hm 23
  rw [value?, hmul, hproduct, hagain]
  exact hx

/-! ## Sums -/

/-- Zeros leave the value of a sum. -/
theorem value?_foldl_add_zeros {l : List ℕ} {f : ℕ → Float32} {total : Float32}
    (hzero : ∀ j ∈ l, value? (f j) = some 0) (htotal : value? total = some v) :
    value? (l.foldl (fun total j => total + f j) total) = some v := by
  induction l generalizing total with
  | nil => exact htotal
  | cons j rest ih =>
    rw [List.foldl_cons]
    exact ih (fun i hi => hzero i (List.mem_cons_of_mem _ hi))
      (value?_add_of_zero htotal (hzero j List.mem_cons_self))

/-- A sum from zero in which all terms but one are zeros has the value of that term. -/
theorem value?_foldl_add_single {n i : ℕ} {f : ℕ → Float32} {total : Float32} (hi : i < n)
    (hterm : value? (f i) = some v) (hzero : ∀ j < n, j ≠ i → value? (f j) = some 0)
    (htotal : value? total = some 0) :
    value? ((List.range n).foldl (fun total j => total + f j) total) = some v := by
  -- The terms before the one, the one, and the terms behind it
  obtain ⟨before, behind, hsplit⟩ := List.append_of_mem (List.mem_range.2 hi)
  have hnodup : (before ++ i :: behind).Nodup := hsplit ▸ List.nodup_range
  have hmem : ∀ j ∈ before ++ i :: behind, j < n := fun j hj => List.mem_range.1 (hsplit ▸ hj)
  rw [List.nodup_append, List.nodup_cons] at hnodup
  obtain ⟨-, ⟨hbehind, -⟩, hbefore⟩ := hnodup
  rw [hsplit, List.foldl_append, List.foldl_cons]
  refine value?_foldl_add_zeros (fun j hj => hzero j (hmem j (by simp [hj])) ?_)
    (value?_zero_add (value?_foldl_add_zeros (fun j hj => hzero j (hmem j (by simp [hj])) ?_) htotal)
      hterm)
  · rintro rfl
    exact hbehind hj
  · rintro rfl
    exact hbefore j hj j List.mem_cons_self rfl

end Stencil.Precision
