import Stencil.Proofs.Kernel.Divisor

/-!
# Normalizing twice

Normalized weights sum to one, or their positive lobe does, so that a second normalization has
nothing left to do.  The weights are rounded, though, and the rounded weights sum to one only up to
half a unit for each of them.  Where the weights nearly cancel the magnitudes are large beside their
sum, and the roundings with them.  They move the sum away from one, or out of the range in which a
sum counts as cancelled, and then a second normalization divides by a number of quite another size.

## Key results

- `Quotients.sum_close` / `Quotients.mass_close` / `Quotients.positive_close`: what the sums of the
  weights become when all of them are divided
- `unmoved_of_scale`: weights stay where they are when what they are divided by is close to one
- `dominated_stays` / `cancelled_stays`: which weights a second normalization leaves where they are
- `renormalized_stays`: when it does so
- `normalize_not_idempotent`: weights that it changes
-/

namespace Stencil.Kernel

open Precision

variable {weights : List Float32} {d : Float} {v : ℚ}

/-! ## Divided weights -/

/-- The weights divided by a number, as a normalization divides them. -/
def divided (weights : List Float32) (d : Float) : List Float32 :=
  weights.map fun w => narrow (widen w / d)

@[simp] theorem length_divided (weights : List Float32) (d : Float) :
    (divided weights d).length = weights.length := List.length_map _

theorem normalizeWeights_of_some (h : divisor? weights = some d) :
    normalizeWeights weights = divided weights d := by
  rw [normalizeWeights, h, divided]

theorem normalizeWeights_of_none (h : divisor? weights = none) :
    normalizeWeights weights = weights := by
  rw [normalizeWeights, h]

/-- Finite weights, divided by a number without overflow. -/
structure Quotients (weights : List Float32) (d : Float) (v : ℚ) : Prop where
  value : wideValue? d = some v
  ne_zero : v ≠ 0
  finite : ∀ w ∈ weights, w.isFinite
  finite_divided : ∀ w ∈ divided weights d, w.isFinite

namespace Quotients

/-- The quotient of each weight is close to the exact one. -/
theorem close (h : Quotients weights d v) {w : Float32} (hw : w ∈ weights) :
    |valueOf (narrow (widen w / d)) - valueOf w / v| ≤
      quotientError * (|valueOf w| / |v| + smallestNormal) := by
  rw [← abs_div]
  exact narrow_div_close (value?_of_isFinite (h.finite w hw)) h.value h.ne_zero
    (h.finite_divided _ (List.mem_map_of_mem hw))

/-- A sum over the quotients is close to the sum over the exact ones, for all that moves no further
    than its argument. -/
private theorem map_close (h : Quotients weights d v) {f : ℚ → ℚ}
    (hf : ∀ a b, |f a - f b| ≤ |a - b|) :
    |((divided weights d).map fun w => f (valueOf w)).sum -
        (weights.map fun w => f (valueOf w / v)).sum| ≤
      quotientError * (exactMass weights / |v| + weights.length * smallestNormal) := by
  induction weights with
  | nil => simp [divided, exactMass]
  | cons w rest ih =>
    have hrest := ih ⟨h.value, h.ne_zero, fun u hu => h.finite u (List.mem_cons_of_mem _ hu),
      fun u hu => h.finite_divided u (List.mem_cons_of_mem _ hu)⟩
    have hfirst := (hf _ _).trans (h.close List.mem_cons_self)
    have hdivided : divided (w :: rest) d = narrow (widen w / d) :: divided rest d := rfl
    -- The first quotient and the others each take their share
    have hsplit : quotientError * (exactMass (w :: rest) / |v| +
        ((w :: rest).length : ℚ) * smallestNormal) =
        quotientError * (|valueOf w| / |v| + smallestNormal) +
          quotientError * (exactMass rest / |v| + rest.length * smallestNormal) := by
      rw [exactMass_cons, List.length_cons, add_div]
      push_cast
      ring
    rw [hsplit, hdivided, List.map_cons, List.map_cons, List.sum_cons, List.sum_cons,
      add_sub_add_comm]
    exact (abs_add_le _ _).trans (add_le_add hfirst hrest)

/-- What the quotients of at most `2 ^ 24` weights cost together. -/
def error (weights : List Float32) (v : ℚ) : ℚ :=
  quotientError * (exactMass weights / |v| + 1 / 10 ^ 12)

/-- Numbers without leading bit are so small that they do not count in a sum of weights. -/
private theorem length_le_error (hfew : weights.length ≤ 2 ^ 24) :
    quotientError * (exactMass weights / |v| + weights.length * smallestNormal) ≤
      error weights v := by
  have hlength : (weights.length : ℚ) ≤ 2 ^ 24 := by exact_mod_cast hfew
  have hsmall : (weights.length : ℚ) * smallestNormal ≤ 1 / 10 ^ 12 :=
    calc (weights.length : ℚ) * smallestNormal ≤ 2 ^ 24 * smallestNormal :=
          mul_le_mul_of_nonneg_right hlength smallestNormal_pos.le
      _ ≤ 1 / 10 ^ 12 := by norm_num [smallestNormal]
  unfold error
  refine mul_le_mul_of_nonneg_left ?_ (by norm_num [quotientError])
  linarith

/-- The sum of the quotients is close to the quotient of the sum. -/
theorem sum_close (h : Quotients weights d v) (hfew : weights.length ≤ 2 ^ 24) :
    |exactSum (divided weights d) - exactSum weights / v| ≤ error weights v := by
  have hclose := h.map_close (f := fun a => a) fun a b => le_refl _
  simp only [div_eq_mul_inv _ v, List.sum_map_mul_right] at hclose
  rw [div_eq_mul_inv]
  exact hclose.trans (length_le_error hfew)

/-- The magnitudes of the quotients are close to the quotient of the magnitudes. -/
theorem mass_close (h : Quotients weights d v) (hfew : weights.length ≤ 2 ^ 24) :
    |exactMass (divided weights d) - exactMass weights / (|v|)| ≤ error weights v := by
  have hclose := h.map_close (f := fun a => |a|) abs_abs_sub_abs_le
  have hscale : ∀ a : ℚ, |a / v| = |a| * (|v|)⁻¹ := fun a => by rw [abs_div, div_eq_mul_inv]
  simp only [hscale, List.sum_map_mul_right] at hclose
  refine le_trans (le_of_eq ?_) (hclose.trans (length_le_error hfew))
  rw [div_eq_mul_inv]
  rfl

/-- The positive quotients are close to the quotient of the positive weights, if the divisor is
    positive. -/
theorem positive_close (h : Quotients weights d v) (hfew : weights.length ≤ 2 ^ 24) (hv : 0 < v) :
    |positiveMass (divided weights d) - positiveMass weights / v| ≤ error weights v := by
  have hclose := h.map_close (f := fun a => max a 0) fun a b => abs_max_sub_max_le_abs a b 0
  have hscale : ∀ a : ℚ, max (a / v) 0 = max a 0 * v⁻¹ := fun a => by
    rw [← div_eq_mul_inv, ← max_div_div_right hv.le, zero_div]
  simp only [hscale, List.sum_map_mul_right] at hclose
  rw [div_eq_mul_inv]
  exact hclose.trans (length_le_error hfew)

end Quotients

/-! ## Weights that stay where they are -/

/-- No weight moves by more than a millionth of it. -/
def Unmoved (before after : List Float32) : Prop :=
  List.Forall₂ (fun v w => w.isFinite ∧ |valueOf w - valueOf v| ≤ |valueOf v| / 10 ^ 6) before after

instance (before after : List Float32) : Decidable (Unmoved before after) :=
  inferInstanceAs (Decidable (List.Forall₂ _ _ _))

/-- What does not change is not moved. -/
theorem Unmoved.refl (h : ∀ w ∈ weights, w.isFinite) : Unmoved weights weights := by
  refine List.forall₂_same.2 fun w hw => ⟨h w hw, ?_⟩
  rw [sub_self, abs_zero]
  positivity

/-- Divided weights are compared one by one. -/
private theorem unmoved_divided_iff :
    Unmoved weights (divided weights d) ↔
      ∀ w ∈ weights, (narrow (widen w / d)).isFinite ∧
        |valueOf (narrow (widen w / d)) - valueOf w| ≤ |valueOf w| / 10 ^ 6 := by
  rw [Unmoved, divided, List.forall₂_map_right_iff, List.forall₂_same]

/-- Weights stay where they are when they are divided by a number close to one. -/
private theorem unmoved_divided (h : Quotients weights d v) (hclose : |v - 1| ≤ divisorSlack) :
    Unmoved weights (divided weights d) := by
  refine unmoved_divided_iff.2 fun w hw => ?_
  have hfinite := h.finite_divided _ (List.mem_map_of_mem hw)
  exact ⟨hfinite, narrow_div_stays (value?_of_isFinite (h.finite w hw)) h.value hclose hfinite⟩

/-- A divisor close to one is not small. -/
private theorem half_le_of_close (hclose : |v - 1| ≤ divisorSlack) : 1 / 2 ≤ v := by
  have hlow := (abs_le.1 hclose).1
  unfold divisorSlack at hlow
  linarith

/-- Weights of moderate size stay where they are when what they are divided by is close to one. -/
theorem unmoved_of_scale (hfinite : ∀ w ∈ weights, w.isFinite)
    (hscale : wideValue? (scale weights) = some v) (hclose : |v - 1| ≤ divisorSlack)
    (hmass : exactMass weights ≤ 8) : Unmoved weights (normalizeWeights weights) := by
  have hhalf := half_le_of_close hclose
  have hne : v ≠ 0 := by linarith
  have hdivisor : divisor? weights = some (scale weights) := by
    rw [divisor?_of_value hscale, if_neg hne]
  rw [normalizeWeights_of_some hdivisor]
  refine unmoved_divided ⟨hscale, hne, hfinite, fun y hy => ?_⟩ hclose
  -- The weights are far from the end of single precision, and so are their quotients
  obtain ⟨w, hw, rfl⟩ := List.mem_map.1 hy
  refine (isFinite_narrow_div_iff (value?_of_isFinite (hfinite w hw)) hscale hne).2 ?_
  calc |valueOf w| ≤ 8 := (abs_valueOf_le_exactMass hw).trans hmass
    _ < 1 / 2 * quotientLimit := by norm_num [quotientLimit]
    _ ≤ |v| * quotientLimit := by
        rw [abs_of_nonneg (by linarith)]
        exact mul_le_mul_of_nonneg_right hhalf (by norm_num [quotientLimit])

/-- What lies close to a divisor becomes a number close to one. -/
private theorem abs_div_sub_one_le {a cost : ℚ} (hne : v ≠ 0) (h : |v - a| ≤ cost) :
    |a / v - 1| ≤ cost / |v| := by
  have hscale : a / v - 1 = (a - v) / v := by rw [sub_div, div_self hne]
  rw [hscale, abs_div, abs_sub_comm]
  exact div_le_div_of_nonneg_right h (abs_nonneg v)

/-! ## Magnitudes that are small beside the sum -/

/-- Magnitudes that are no more than seven times the sum leave a sum close to one. -/
private theorem dominated_bounds {unit ratio sum mass divisor : ℚ}
    (hunit : |unit - 1| ≤ sumError * ratio) (hratio : ratio ≤ 7 * |unit|)
    (hsum : |sum - unit| ≤ quotientError * (ratio + 1 / 10 ^ 12))
    (hmass : |mass - ratio| ≤ quotientError * (ratio + 1 / 10 ^ 12))
    (hdivisor : |divisor - sum| ≤ sumError * mass) : |divisor - 1| ≤ divisorSlack ∧ mass ≤ 8 := by
  have hunit_le := abs_sub_abs_le_abs_sub unit 1
  have hmass_le := (abs_le.1 hmass).2
  have htriangle := abs_sub_le divisor sum 1
  have hsum_one := abs_sub_le sum unit 1
  rw [abs_one] at hunit_le
  unfold sumError at hunit hdivisor
  unfold quotientError at hsum hmass_le
  unfold divisorSlack
  constructor <;> linarith

/-- Weights whose magnitudes are no more than seven times their sum are normalized once and for
    all. -/
theorem dominated_stays (hfinite : ∀ w ∈ weights, w.isFinite) (hfew : weights.length ≤ 2 ^ 24)
    (honce : ∀ w ∈ normalizeWeights weights, w.isFinite) (hsum : ¬ Cancelled weights)
    (hmass : exactMass weights ≤ 7 * |exactSum weights|) :
    Unmoved (normalizeWeights weights) (normalizeWeights (normalizeWeights weights)) := by
  have hlimit : 2 ^ 24 ≤ weightLimit := by decide
  obtain ⟨v, hv, hclose⟩ := wideSum_close hfinite (hfew.trans hlimit)
  have hne := ne_zero_of_not_cancelled hv hsum
  rw [← scale_of_not_cancelled hsum] at hv
  rw [normalizeWeights_of_some (by rw [divisor?_of_value hv, if_neg hne])] at honce ⊢
  have hquotients : Quotients weights (scale weights) v := ⟨hv, hne, hfinite, honce⟩
  have hfew' : (divided weights (scale weights)).length ≤ 2 ^ 24 := by rwa [length_divided]
  obtain ⟨v', hv', hclose'⟩ := wideSum_close honce (hfew'.trans hlimit)
  -- Everything is measured in units of the divisor
  have hunit := abs_div_sub_one_le hne (hclose hfew)
  have hratio : exactMass weights / |v| ≤ 7 * |exactSum weights / v| := by
    rw [abs_div, ← mul_div_assoc]
    exact div_le_div_of_nonneg_right hmass (abs_nonneg v)
  rw [mul_div_assoc] at hunit
  obtain ⟨hone, hmass'⟩ := dominated_bounds hunit hratio (hquotients.sum_close hfew)
    (hquotients.mass_close hfew) (hclose' hfew')
  -- The new sum is close to one, so it does not count as zero
  have hsum' : ¬ Cancelled (divided weights (scale weights)) := by
    intro hcancelled
    have hsmall := abs_lt_of_cancelled hv' hcancelled
    have hhalf := (half_le_of_close hone).trans (le_abs_self v')
    linarith
  rw [← scale_of_not_cancelled hsum'] at hv'
  exact unmoved_of_scale honce hv' hone hmass'

/-! ## Weights that cancel -/

/-- Weights that cancel before and after leave a positive sum close to one. -/
private theorem cancelled_bounds {unit ratio sum mass positive total divisor : ℚ}
    (hunit : |unit - 1| ≤ sumError * unit)
    (hpositive : |positive - unit| ≤ quotientError * (ratio + 1 / 10 ^ 12))
    (hmass : |mass - ratio| ≤ quotientError * (ratio + 1 / 10 ^ 12))
    (hsplit : mass = 2 * positive - sum) (htotal : |total - sum| ≤ sumError * mass)
    (hcancelled : |total| < 11 / 10 ^ 9) (hdivisor : |divisor - positive| ≤ sumError * positive) :
    |divisor - 1| ≤ divisorSlack ∧ mass ≤ 8 := by
  unfold sumError at hunit htotal hdivisor
  unfold quotientError at hpositive hmass
  obtain ⟨hunit_low, hunit_high⟩ := abs_le.1 hunit
  obtain ⟨hpositive_low, hpositive_high⟩ := abs_le.1 hpositive
  obtain ⟨hmass_low, hmass_high⟩ := abs_le.1 hmass
  obtain ⟨htotal_low, htotal_high⟩ := abs_le.1 htotal
  obtain ⟨hcancelled_low, hcancelled_high⟩ := abs_lt.1 hcancelled
  obtain ⟨hdivisor_low, hdivisor_high⟩ := abs_le.1 hdivisor
  unfold divisorSlack
  rw [abs_le]
  refine ⟨⟨?_, ?_⟩, ?_⟩ <;> linarith

/-- A computed sum of positive weights is positive unless it is zero. -/
private theorem pos_of_close {positive : ℚ} (h : |v - positive| ≤ sumError * positive)
    (hne : v ≠ 0) : 0 < v := by
  obtain ⟨hlow, hhigh⟩ := abs_le.1 h
  unfold sumError at hlow hhigh
  rcases lt_or_gt_of_ne hne with hneg | hpos
  · linarith
  · exact hpos

/-- Weights that cancel, and still do so after they are normalized, are normalized once and for
    all. -/
theorem cancelled_stays (hfinite : ∀ w ∈ weights, w.isFinite) (hfew : weights.length ≤ 2 ^ 24)
    (honce : ∀ w ∈ normalizeWeights weights, w.isFinite) (hsum : Cancelled weights)
    (hsum' : Cancelled (normalizeWeights weights)) :
    Unmoved (normalizeWeights weights) (normalizeWeights (normalizeWeights weights)) := by
  have hlimit : 2 ^ 24 ≤ weightLimit := by decide
  obtain ⟨v, hv, hclose⟩ := wideSum_positiveWeights_close hfinite (hfew.trans hlimit)
  rw [← scale_of_cancelled hsum] at hv
  by_cases hzero : v = 0
  · -- Without positive weights nothing is divided, now or later
    have hsame := normalizeWeights_of_none (by rw [divisor?_of_value hv, if_pos hzero])
    rw [hsame, hsame]
    exact Unmoved.refl hfinite
  · rw [normalizeWeights_of_some (by rw [divisor?_of_value hv, if_neg hzero])] at honce hsum' ⊢
    have hquotients : Quotients weights (scale weights) v := ⟨hv, hzero, hfinite, honce⟩
    have hfew' : (divided weights (scale weights)).length ≤ 2 ^ 24 := by rwa [length_divided]
    obtain ⟨total, htotal, htotal_close⟩ := wideSum_close honce (hfew'.trans hlimit)
    obtain ⟨v', hv', hclose'⟩ := wideSum_positiveWeights_close honce (hfew'.trans hlimit)
    have hpos := pos_of_close (hclose hfew) hzero
    have hunit := abs_div_sub_one_le hzero (hclose hfew)
    rw [mul_div_assoc, abs_of_pos hpos] at hunit
    obtain ⟨hone, hmass'⟩ := cancelled_bounds hunit (hquotients.positive_close hfew hpos)
      (hquotients.mass_close hfew) (exactMass_eq _) (htotal_close hfew')
      (abs_lt_of_cancelled htotal hsum') (hclose' hfew')
    rw [← scale_of_cancelled hsum'] at hv'
    exact unmoved_of_scale honce hv' hone hmass'

/-! ## Divisors close to one -/

/-- Where weights with a leading bit stay, their divisor is close to one. -/
private theorem close_of_unmoved (h : Quotients weights d v)
    (hunmoved : Unmoved weights (divided weights d)) {w : Float32} (hw : w ∈ weights)
    (hnormal : smallestNormal ≤ |valueOf w|) : |v - 1| ≤ 12 / 10 ^ 7 := by
  have hmoved := (unmoved_divided_iff.1 hunmoved w hw).2
  have hclose := h.close hw
  have hw_pos : 0 < |valueOf w| := smallestNormal_pos.trans_le hnormal
  have hv_pos : 0 < |v| := abs_pos.2 h.ne_zero
  -- The distance of the exact quotient from the weight is the one of the divisor from one
  have hscale : |valueOf w / v - valueOf w| = |valueOf w| / |v| * |v - 1| := by
    have hquotient : valueOf w / v - valueOf w = valueOf w / v * (1 - v) := by
      rw [mul_sub, mul_one, div_mul_cancel₀ _ h.ne_zero]
    rw [hquotient, abs_mul, abs_div, abs_sub_comm]
  have htriangle := abs_sub_le (valueOf w / v) (valueOf (narrow (widen w / d))) (valueOf w)
  rw [hscale, abs_sub_comm (valueOf w / v)] at htriangle
  have hdistance : |valueOf w| / |v| * |v - 1| ≤
      |valueOf w| / |v| * (quotientError + |v| * (quotientError + 1 / 10 ^ 6)) := by
    have hcancel : |valueOf w| / |v| * (|v| * (quotientError + 1 / 10 ^ 6)) =
        |valueOf w| * (quotientError + 1 / 10 ^ 6) := by
      rw [← mul_assoc, div_mul_cancel₀ _ hv_pos.ne']
    have hleast : quotientError * smallestNormal ≤ quotientError * |valueOf w| :=
      mul_le_mul_of_nonneg_left hnormal (by norm_num [quotientError])
    rw [mul_add, hcancel]
    linarith
  have hdivisor := le_of_mul_le_mul_left hdistance (div_pos hw_pos hv_pos)
  have hv_le := abs_sub_abs_le_abs_sub v 1
  rw [abs_one] at hv_le
  unfold quotientError at hdivisor
  linarith

/-! ## Normalizing twice -/

/-- A second normalization has no divisor and changes nothing, or its divisor is a number.  Then all
    weights stay where they are if that number is close to one, and it is close to one if weights with
    a leading bit do.  So it is when the magnitudes of the weights are no more than seven times their
    sum, and when the weights cancel before and after the first normalization. -/
theorem renormalized_stays {weights : List Float32} (hfinite : ∀ w ∈ weights, w.isFinite)
    (hcount : weights.length ≤ weightLimit) (honce : ∀ w ∈ normalizeWeights weights, w.isFinite) :
    let once := normalizeWeights weights
    let twice := normalizeWeights once
    (divisor? once = none ∧ twice = once ∨
      ∃ d v, divisor? once = some d ∧ wideValue? d = some v ∧ v ≠ 0 ∧
        ((∀ w ∈ twice, w.isFinite) → |v - 1| ≤ 49 / 10 ^ 8 → Unmoved once twice) ∧
        (Unmoved once twice → (∃ w ∈ once, 2 ^ (-126 : ℤ) ≤ |valueOf w|) →
          |v - 1| ≤ 12 / 10 ^ 7)) ∧
    (weights.length ≤ 2 ^ 24 → ¬ Cancelled weights →
      exactMass weights ≤ 7 * |exactSum weights| → Unmoved once twice) ∧
    (weights.length ≤ 2 ^ 24 → Cancelled weights → Cancelled once → Unmoved once twice) := by
  intro once twice
  refine ⟨?_, fun hfew => dominated_stays hfinite hfew honce,
    fun hfew => cancelled_stays hfinite hfew honce⟩
  cases hdivisor : divisor? once with
  | none => exact Or.inl ⟨rfl, normalizeWeights_of_none hdivisor⟩
  | some d =>
    have htwice : twice = divided once d := normalizeWeights_of_some hdivisor
    have hcount' : once.length ≤ weightLimit := by rwa [normalizeWeights_length]
    obtain ⟨v, hv, hne⟩ := exists_value_divisor? honce hcount' hdivisor
    refine Or.inr ⟨d, v, rfl, hv, hne, fun hfinite' hclose => ?_, fun hunmoved hnormal => ?_⟩
    · rw [htwice] at hfinite' ⊢
      exact unmoved_divided ⟨hv, hne, honce, hfinite'⟩ hclose
    · obtain ⟨w, hw, hleading⟩ := hnormal
      rw [htwice] at hunmoved
      have hfinite' : ∀ y ∈ divided once d, y.isFinite :=
        List.forall_mem_map.2 fun u hu => (unmoved_divided_iff.1 hunmoved u hu).1
      exact close_of_unmoved ⟨hv, hne, honce, hfinite'⟩ hunmoved hw hleading

/-- Weights with a sum that is large beside them, and weights that cancel. -/
theorem renormalized_stays_twice :
    let plain := [ofInt 6, ofInt 2, ofInt 1, ofInt 14]
    let edge := [ofInt 1, ofInt (-1), ofInt 1, ofInt (-1)]
    ((∀ w ∈ plain, w.isFinite) ∧ plain.length ≤ weightLimit ∧
      (∀ w ∈ normalizeWeights plain, w.isFinite) ∧ ¬ Cancelled plain ∧
      exactMass plain ≤ 7 * |exactSum plain| ∧
      Unmoved (normalizeWeights plain) (normalizeWeights (normalizeWeights plain))) ∧
    (∀ w ∈ edge, w.isFinite) ∧ edge.length ≤ weightLimit ∧
      (∀ w ∈ normalizeWeights edge, w.isFinite) ∧ Cancelled edge ∧
      Cancelled (normalizeWeights edge) ∧
      Unmoved (normalizeWeights edge) (normalizeWeights (normalizeWeights edge)) := by
  intro plain edge
  have hplain : (∀ w ∈ plain, w.isFinite) ∧ plain.length ≤ weightLimit ∧
      (∀ w ∈ normalizeWeights plain, w.isFinite) ∧ ¬ Cancelled plain ∧
      exactMass plain ≤ 7 * |exactSum plain| := by decide +kernel
  have hedge : (∀ w ∈ edge, w.isFinite) ∧ edge.length ≤ weightLimit ∧
      (∀ w ∈ normalizeWeights edge, w.isFinite) ∧ Cancelled edge ∧
      Cancelled (normalizeWeights edge) := by decide +kernel
  obtain ⟨hfinite, hcount, honce, hsum, hmass⟩ := hplain
  obtain ⟨hfinite', hcount', honce', hsum', hagain⟩ := hedge
  obtain ⟨-, hdominated, -⟩ := renormalized_stays hfinite hcount honce
  obtain ⟨-, -, hcancelled⟩ := renormalized_stays hfinite' hcount' honce'
  exact ⟨⟨hfinite, hcount, honce, hsum, hmass, hdominated (by decide) hsum hmass⟩, hfinite', hcount',
    honce', hsum', hagain, hcancelled (by decide) hsum' hagain⟩

/-- Weights that nearly cancel do not stay.  With their sum as the divisor the second normalization
    turns all signs around, and with the sum of the positive ones it makes all weights many millions
    of times larger. -/
theorem normalize_not_idempotent :
    let plain := [Float32.ofBits 0x3f8ccccd, Float32.ofBits 0xbf800000, Float32.ofBits 0xbdcccccd]
    let edge := [Float32.ofBits 0x3dcccccd, Float32.ofBits 0x3e4ccccd, Float32.ofBits 0xbe99999a]
    ((∀ w ∈ plain, w.isFinite) ∧ (∀ w ∈ normalizeWeights plain, w.isFinite) ∧ ¬ Cancelled plain ∧
      ¬ Unmoved (normalizeWeights plain) (normalizeWeights (normalizeWeights plain))) ∧
    (∀ w ∈ edge, w.isFinite) ∧ (∀ w ∈ normalizeWeights edge, w.isFinite) ∧ Cancelled edge ∧
      ¬ Unmoved (normalizeWeights edge) (normalizeWeights (normalizeWeights edge)) := by
  decide +kernel

end Stencil.Kernel
