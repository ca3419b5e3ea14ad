import Stencil.Proofs.Kernel.Renormalization
import Stencil.Proofs.Precision.Monotone

/-!
# The shape of a filter

Every weight is divided by the same number, so a normalization keeps the order of the weights, or
turns it around when the divisor is negative.  Each quotient is rounded twice and may become an
infinity or a zero on the way, but rounding keeps the order of any two numbers, and zero is rounded
to zero.  So weights can fall together, but none of them passes another one or changes its side.

## Key results

- `keepsShape_divided`: what division does to the order of weights, it does to their shape
- `normalized_shape`: a normalization keeps the shape of the weights, or turns it around
-/

namespace Stencil.Kernel

open Precision

variable {weights : List Float32} {d : Float} {v : ℚ}

/-- How weights lie to each other and to zero is kept.  What was in the order of numbers is in the
    given order, which may be the opposite one. -/
structure KeepsShape (order : Float32 → Float32 → Prop) (before after : List Float32) : Prop where
  length_eq : after.length = before.length
  /-- The order of any two weights. -/
  ordered : ∀ i j (hi : i < before.length) (hj : j < before.length),
    before[i] ≤ before[j] → order after[i] after[j]
  /-- No weight above zero gets to the other side. -/
  above : ∀ i (hi : i < before.length), ofInt 0 ≤ before[i] → order (ofInt 0) after[i]
  /-- No weight below zero gets to the other side. -/
  below : ∀ i (hi : i < before.length), before[i] ≤ ofInt 0 → order after[i] (ofInt 0)
  zero : ∀ i (hi : i < before.length), before[i] == ofInt 0 → after[i] == ofInt 0
  equal : ∀ i j (hi : i < before.length) (hj : j < before.length),
    before[i] == before[j] → after[i] == after[j]

/-- Divided weights are in an order when rounded quotients are. -/
theorem keepsShape_divided {order : Float32 → Float32 → Prop} (hfinite : ∀ w ∈ weights, w.isFinite)
    (hd : wideValue? d = some v) (hv : v ≠ 0)
    (horder : ∀ {x y r s}, RoundedTwice (x / v) r → RoundedTwice (y / v) s → x ≤ y → order r s) :
    KeepsShape order weights (divided weights d) := by
  have hvalue : ∀ i (hi : i < weights.length), value? weights[i] = some (valueOf weights[i]) :=
    fun i hi => value?_of_isFinite (hfinite _ (List.getElem_mem hi))
  have hquotient : ∀ i (hi : i < weights.length),
      RoundedTwice (valueOf weights[i] / v) (narrow (widen weights[i] / d)) :=
    fun i hi => roundedTwice_narrow_div (hvalue i hi) hd hv
  have hzero : value? (ofInt 0) = some 0 := rfl
  have hzeroQuotient : RoundedTwice (0 / v) (ofInt 0) := by
    rw [zero_div]
    exact roundedTwice_zero
  have hle : ∀ {x y : Float32} {a b : ℚ}, value? x = some a → value? y = some b → x ≤ y → a ≤ b :=
    fun ha hb => (le_iff_rank (rank?_of_value ha) (rank?_of_value hb)).1
  refine ⟨length_divided weights d, fun i j hi hj h => ?_, fun i hi h => ?_, fun i hi h => ?_,
    fun i hi h => ?_, fun i j hi hj h => ?_⟩
  all_goals simp only [divided, List.getElem_map]
  · exact horder (hquotient i hi) (hquotient j hj) (hle (hvalue i hi) (hvalue j hj) h)
  · exact horder hzeroQuotient (hquotient i hi) (hle hzero (hvalue i hi) h)
  · exact horder (hquotient i hi) hzeroQuotient (hle (hvalue i hi) hzero h)
  · have hsame := (beq_iff_value (hvalue i hi) hzero).1 h
    have hrounded := hquotient i hi
    rw [hsame] at hrounded
    exact hrounded.beq hzeroQuotient
  · have hsame := (beq_iff_value (hvalue i hi) (hvalue j hj)).1 h
    have hrounded := hquotient i hi
    rw [hsame] at hrounded
    exact hrounded.beq (hquotient j hj)

/-- A normalization with a divisor above zero keeps the shape of the weights, and one with a divisor
    below zero turns it around.  There is no other divisor. -/
theorem normalized_shape {weights : List Float32} {d : Float} (hfinite : ∀ w ∈ weights, w.isFinite)
    (hcount : weights.length ≤ weightLimit) (hdivisor : divisor? weights = some d) :
    (zeroWide < d → KeepsShape (· ≤ ·) weights (normalizeWeights weights)) ∧
      (d < zeroWide → KeepsShape (· ≥ ·) weights (normalizeWeights weights)) ∧
      (zeroWide < d ∨ d < zeroWide) := by
  obtain ⟨v, hv, hne⟩ := exists_value_divisor? hfinite hcount hdivisor
  have hzero : wideValue? zeroWide = some 0 := rfl
  rw [normalizeWeights_of_some hdivisor, wide_lt_iff_value hzero hv, wide_lt_iff_value hv hzero]
  refine ⟨fun hpos => ?_, fun hneg => ?_, hne.symm.lt_or_gt⟩
  · exact keepsShape_divided hfinite hv hne fun hr hs hxy =>
      hr.le hs (div_le_div_of_nonneg_right hxy hpos.le)
  · exact keepsShape_divided hfinite hv hne fun hr hs hxy =>
      hs.le hr (div_le_div_of_nonpos_of_le hneg.le hxy)

/-- Weights with a divisor above zero, and weights with one below it. -/
theorem normalized_shape_both_signs :
    let plain := [ofInt 3, ofInt 0, ofInt (-1)]
    let flipped := [ofInt 1, ofInt 0, ofInt (-3)]
    ((∀ w ∈ plain, w.isFinite) ∧ plain.length ≤ weightLimit ∧
      divisor? plain = some (wideSum plain) ∧ zeroWide < wideSum plain ∧
      KeepsShape (· ≤ ·) plain (normalizeWeights plain)) ∧
    (∀ w ∈ flipped, w.isFinite) ∧ flipped.length ≤ weightLimit ∧
      divisor? flipped = some (wideSum flipped) ∧ wideSum flipped < zeroWide ∧
      KeepsShape (· ≥ ·) flipped (normalizeWeights flipped) := by
  intro plain flipped
  have hplain : (∀ w ∈ plain, w.isFinite) ∧ plain.length ≤ weightLimit ∧
      divisor? plain = some (wideSum plain) ∧ zeroWide < wideSum plain := by decide +kernel
  have hflipped : (∀ w ∈ flipped, w.isFinite) ∧ flipped.length ≤ weightLimit ∧
      divisor? flipped = some (wideSum flipped) ∧ wideSum flipped < zeroWide := by decide +kernel
  obtain ⟨hfinite, hcount, hdivisor, hpos⟩ := hplain
  obtain ⟨hfinite', hcount', hdivisor', hneg⟩ := hflipped
  obtain ⟨hkept, -, -⟩ := normalized_shape hfinite hcount hdivisor
  obtain ⟨-, hturned, -⟩ := normalized_shape hfinite' hcount' hdivisor'
  exact ⟨⟨hfinite, hcount, hdivisor, hpos, hkept hpos⟩, hfinite', hcount', hdivisor', hneg,
    hturned hneg⟩

end Stencil.Kernel
