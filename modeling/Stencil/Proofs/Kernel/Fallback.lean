import Stencil.Proofs.Kernel.Divisor
import Stencil.Proofs.Precision.Positive

/-!
# Weights without a divisor

A sum that counts as zero gives way to the sum of the positive weights.  That sum starts at minus
zero and stays above zero from its first weight on, so it is zero only if there is no positive
weight.  A sum that does not count as zero is not zero either: it is too large, infinite or NaN.  So
exactly the weights that cancel without a positive one among them have no divisor.

## Key results

- `divisor?_of_not_cancelled` / `divisor?_of_cancelled`: the divisor in either case
- `divisor?_eq_none_iff`: which weights are left as they are
-/

namespace Stencil.Kernel

open Precision

variable {weights : List Float32}

/-! ## Sums of positive weights -/

/-- Weights above zero have a sum above zero, if there are any. -/
theorem zeroWide_lt_wideSum (hne : weights ≠ []) (hpos : ∀ w ∈ weights, ofInt 0 < w) :
    zeroWide < wideSum weights := by
  obtain ⟨w, rest, rfl⟩ := List.exists_cons_of_ne_nil hne
  have hw := positive_widen ((zero_lt_iff_positive w).1 (hpos w List.mem_cons_self))
  rw [zeroWide_lt_iff_positive, wideSum, List.foldl_cons]
  -- The first weight takes the sum above zero, where the others keep it
  exact positive_foldl_add (positive_negativeZeroWide_add hw)
    fun u hu => hpos u (List.mem_cons_of_mem _ hu)

/-- A weight above zero is left when the others are taken out. -/
theorem positiveWeights_eq_nil_iff :
    positiveWeights weights = [] ↔ ∀ w ∈ weights, ¬ ofInt 0 < w := by
  simp [positiveWeights, List.filter_eq_nil_iff]

/-! ## Both divisors -/

/-- A sum that is equal to zero counts as zero. -/
theorem cancelled_of_beq_zeroWide (h : wideSum weights == zeroWide) : Cancelled weights := by
  obtain ⟨sign, hzero⟩ := eq_zero_of_beq_zeroWide h
  have hvalue : wideValue? (wideSum weights) = some 0 := by
    rw [wideValue?, hzero]
    rfl
  by_contra hcancelled
  exact ne_zero_of_not_cancelled hvalue hcancelled rfl

/-- Weights that do not cancel are divided by their sum. -/
theorem divisor?_of_not_cancelled (h : ¬ Cancelled weights) :
    divisor? weights = some (wideSum weights) := by
  unfold divisor?
  rw [scale_of_not_cancelled h]
  exact if_neg (mt cancelled_of_beq_zeroWide h)

/-- Weights that cancel are divided by the sum of the positive ones, if there are any. -/
theorem divisor?_of_cancelled (h : Cancelled weights) :
    divisor? weights =
      if positiveWeights weights = [] then none else some (wideSum (positiveWeights weights)) := by
  unfold divisor?
  rw [scale_of_cancelled h]
  by_cases hnil : positiveWeights weights = []
  · rw [if_pos hnil, hnil]
    rfl
  · have hpos : zeroWide < wideSum (positiveWeights weights) :=
      zeroWide_lt_wideSum hnil fun w hw => by simpa using (List.mem_filter.1 hw).2
    rw [zeroWide_lt_iff_positive] at hpos
    rw [if_neg hnil]
    exact if_neg (not_beq_zeroWide_of_positive hpos)

/-! ## Weights that are left -/

/-- Weights have no divisor exactly when they cancel and none of them is above zero; these are left as
    they are.  The sum that is taken in place of a cancelled one is above zero wherever it is the
    divisor. -/
theorem divisor?_eq_none_iff (weights : List Float32) :
    (divisor? weights = none ↔ Cancelled weights ∧ ∀ w ∈ weights, ¬ ofInt 0 < w) ∧
      (divisor? weights = none → normalizeWeights weights = weights) ∧
      ∀ d, Cancelled weights → divisor? weights = some d →
        d = wideSum (positiveWeights weights) ∧ zeroWide < d := by
  refine ⟨?_, fun hnone => ?_, fun d hcancelled hd => ?_⟩
  · rw [← positiveWeights_eq_nil_iff]
    by_cases hcancelled : Cancelled weights
    · rw [divisor?_of_cancelled hcancelled]
      simp [hcancelled]
    · rw [divisor?_of_not_cancelled hcancelled]
      simp [hcancelled]
  · rw [normalizeWeights, hnone]
  · rw [divisor?_of_cancelled hcancelled] at hd
    split at hd
    · exact absurd hd (by simp)
    · rename_i hne
      obtain rfl := Option.some.inj hd
      exact ⟨rfl, zeroWide_lt_wideSum hne fun w hw => by simpa using (List.mem_filter.1 hw).2⟩

end Stencil.Kernel
