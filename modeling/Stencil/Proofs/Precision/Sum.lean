import Stencil.Proofs.Precision.Narrowing
import Stencil.Proofs.Precision.Neutral

/-!
# Sums in double precision

A sum of two numbers is a whole number of the smallest units, so rounding it costs a small part of
it and nothing more.  A sum along a list costs this part once for each weight, of the magnitudes
summed so far; cancellation makes the sum smaller, but not the error.

## Key results

- `wideValue?_add`: what an addition costs
- `foldl_add_close`: what a sum along a list costs
- `one_add_pow_le` / `one_add_wideError_pow_le`: how the costs of many additions grow
-/

namespace Stencil.Precision

open Float.Model (Format UnpackedFloat)
open Float.Model.UnpackedFloat

/-! ## One addition -/

/-- A whole number of units of double precision is stored up to the part `2 ^ (-53)` of it. -/
private theorem unpack_pack_round_close (sign : Sign) {m : ℕ} {e : ℤ} (hm : 0 < m)
    (he : Format.binary64.minExponent ≤ e) (hlimit : (m : ℚ) * 2 ^ e ≤ wideLimit) :
    ∃ c, decodedValue? (unpack .binary64 (pack .binary64
        (UnpackedFloat.round .binary64 sign m e))) = some c ∧
      |c - sign.apply m * 2 ^ e| ≤ wideError * (m * 2 ^ e) := by
  obtain ⟨n, t, hplaced, hnearest, hstored⟩ := round_nearest .binary64 sign hm e
  have hclose : |(n : ℚ) * 2 ^ t - m * 2 ^ e| ≤ wideError * (m * 2 ^ e) := by
    rw [wideError, one_div_mul_eq_div]
    exact hplaced.nearest_close_of_low hnearest he
  have hsmall : wideError * (m * 2 ^ e) ≤ wideLimit :=
    (mul_le_of_le_one_left (by positivity) (by norm_num [wideError])).trans hlimit
  refine ⟨_, hstored.wide_value hlimit (hclose.trans hsmall), ?_⟩
  rw [apply_eq_mul, abs_apply_sub]
  exact hclose

/-- A signed whole number of units is stored as closely. -/
private theorem unpack_pack_normalize_close {z e : ℤ} (he : Format.binary64.minExponent ≤ e)
    (hlimit : |(z : ℚ) * 2 ^ e| ≤ wideLimit) (zeroSign : Sign) :
    ∃ c, decodedValue? (unpack .binary64 (pack .binary64
        (UnpackedFloat.normalize .binary64 z e zeroSign))) = some c ∧
      |c - z * 2 ^ e| ≤ wideError * |(z : ℚ) * 2 ^ e| := by
  have hunit : (0 : ℚ) < 2 ^ e := by positivity
  unfold UnpackedFloat.normalize
  rcases lt_trichotomy z 0 with hneg | rfl | hpos
  · obtain ⟨m, rfl⟩ : ∃ m : ℕ, z = -m := ⟨z.natAbs, by omega⟩
    have hm : 0 < m := by omega
    have hvalue : (Sign.negative.apply m : ℚ) * 2 ^ e = ((-m : ℤ) : ℚ) * 2 ^ e := rfl
    rw [← hvalue, abs_apply] at hlimit
    rw [compare_lt_iff_lt.2 hneg, ← hvalue, abs_apply]
    simp only [neg_neg, Int.toNat_natCast]
    exact unpack_pack_round_close .negative hm he hlimit
  · rw [compare_eq_iff_eq.2 rfl]
    exact ⟨0, decodedValue?_packedZero .binary64 zeroSign, by simp⟩
  · obtain ⟨m, rfl⟩ : ∃ m : ℕ, z = m := ⟨z.natAbs, by omega⟩
    have hm : 0 < m := by omega
    have hvalue : (Sign.positive.apply m : ℚ) * 2 ^ e = ((m : ℤ) : ℚ) * 2 ^ e := rfl
    rw [← hvalue, abs_apply] at hlimit
    rw [compare_gt_iff_gt.2 hpos, ← hvalue, abs_apply]
    simp only [Int.toNat_natCast]
    exact unpack_pack_round_close .positive hm he hlimit

/-- A number keeps its value in units of a lower exponent. -/
private theorem apply_shiftLeft (sign : Sign) (m : ℕ) {e low : ℤ} (hlow : low ≤ e) :
    ((sign.apply (m <<< (e - low).toNat : ℕ) : ℤ) : ℚ) * 2 ^ low = sign.apply m * 2 ^ e := by
  obtain ⟨k, rfl⟩ := Int.le.dest hlow
  have hamount : (low + k - low).toNat = k := by omega
  rw [apply_eq_mul, apply_eq_mul sign m, hamount, Nat.shiftLeft_eq, zpow_add₀ (by norm_num),
    zpow_natCast]
  push_cast
  ring

/-- An addition is off by the part `2 ^ (-53)` of the sum at most. -/
theorem wideValue?_add {x y : Float} {a b : ℚ} (hx : wideValue? x = some a)
    (hy : wideValue? y = some b) (hlimit : |a + b| ≤ wideLimit) :
    ∃ c, wideValue? (x + y) = some c ∧ |c - (a + b)| ≤ wideError * |a + b| := by
  have hadd : (x + y).toModel.unpack = unpack .binary64 (pack .binary64
      (add .binary64 x.toModel.unpack y.toModel.unpack)) := rfl
  have hspec : 2 ≤ Format.binary64.exponentBits := by decide
  have hcost : ∀ z : ℚ, 0 ≤ wideError * |z| := fun z => mul_nonneg wideError_pos.le (abs_nonneg z)
  unfold wideValue?
  rw [hadd]
  rcases eq_or_ne a 0 with rfl | ha
  · refine ⟨b, ?_, by rw [zero_add, sub_self, abs_zero]; exact hcost b⟩
    rw [add_comm_unpacked]
    exact decodedValue?_add_of_zero hspec hy hx
  rcases eq_or_ne b 0 with rfl | hb
  · refine ⟨a, ?_, by rw [add_zero, sub_self, abs_zero]; exact hcost a⟩
    exact decodedValue?_add_of_zero hspec hx hy
  obtain ⟨-, -, hzero⟩ | ⟨s₁, m₁, e₁, h₁, hu₁, rfl⟩ := decodedValue?_eq_some hx
  · exact absurd hzero ha
  obtain ⟨-, -, hzero⟩ | ⟨s₂, m₂, e₂, h₂, hu₂, rfl⟩ := decodedValue?_eq_some hy
  · exact absurd hzero hb
  -- Both are whole numbers of units of the lower exponent
  have hlow : Format.binary64.minExponent ≤ min e₁ e₂ :=
    le_min (canonical_unpack hu₁).low (canonical_unpack hu₂).low
  have hsum : ((s₁.apply (m₁ <<< (e₁ - min e₁ e₂).toNat : ℕ) +
      s₂.apply (m₂ <<< (e₂ - min e₁ e₂).toNat : ℕ) : ℤ) : ℚ) * 2 ^ min e₁ e₂ =
      s₁.apply m₁ * 2 ^ e₁ + s₂.apply m₂ * 2 ^ e₂ := by
    rw [Int.cast_add, add_mul, apply_shiftLeft s₁ m₁ (min_le_left e₁ e₂),
      apply_shiftLeft s₂ m₂ (min_le_right e₁ e₂)]
  rw [hu₁, hu₂, ← hsum]
  rw [← hsum] at hlimit
  exact unpack_pack_normalize_close hlow hlimit .positive

/-! ## Sums along a list -/

/-- The exact sum of numbers of single precision. -/
def exactSum (weights : List Float32) : ℚ := (weights.map valueOf).sum

/-- The exact sum of their magnitudes. -/
def exactMass (weights : List Float32) : ℚ := (weights.map fun w => |valueOf w|).sum

@[simp] theorem exactSum_cons (w : Float32) (weights : List Float32) :
    exactSum (w :: weights) = valueOf w + exactSum weights := by simp [exactSum]

@[simp] theorem exactMass_cons (w : Float32) (weights : List Float32) :
    exactMass (w :: weights) = |valueOf w| + exactMass weights := by simp [exactMass]

theorem exactMass_nonneg (weights : List Float32) : 0 ≤ exactMass weights := by
  refine List.sum_nonneg fun x hx => ?_
  obtain ⟨w, -, rfl⟩ := List.mem_map.1 hx
  exact abs_nonneg _

/-- A sum in double precision is off by the part of the magnitudes that its additions cost
    together. -/
theorem foldl_add_close {weights : List Float32} {total : Float} {a : ℚ}
    (htotal : wideValue? total = some a) (hfinite : ∀ w ∈ weights, w.isFinite)
    (hlimit : (1 + wideError) ^ weights.length * (|a| + exactMass weights) ≤ wideLimit) :
    ∃ f, wideValue? (weights.foldl (fun total w => total + widen w) total) = some f ∧
      |f - (a + exactSum weights)| ≤
        ((1 + wideError) ^ weights.length - 1) * (|a| + exactMass weights) := by
  induction weights generalizing total a with
  | nil => exact ⟨a, htotal, by simp [exactSum]⟩
  | cons w rest ih =>
    have hvalue := wideValue?_widen (value?_of_isFinite (hfinite w List.mem_cons_self))
    rw [exactSum_cons, exactMass_cons, List.length_cons, pow_succ] at *
    rw [List.foldl_cons]
    have hmass := exactMass_nonneg rest
    have hcost := wideError_pos
    have hgrown : 1 ≤ (1 + wideError) ^ rest.length := one_le_pow₀ (by linarith)
    generalize (1 + wideError) ^ rest.length = grown at *
    generalize exactSum rest = sum at *
    generalize exactMass rest = mass at *
    generalize valueOf w = x at *
    have htriangle := abs_add_le a x
    have hmagnitude : 0 ≤ |a| + (|x| + mass) := by positivity
    -- The first addition costs its part of what it adds
    have hbelow : |a + x| ≤ wideLimit :=
      calc |a + x| ≤ |a| + (|x| + mass) := by linarith
        _ ≤ grown * (1 + wideError) * (|a| + (|x| + mass)) :=
            le_mul_of_one_le_left hmagnitude (one_le_mul_of_one_le_of_one_le hgrown (by linarith))
        _ ≤ wideLimit := hlimit
    obtain ⟨c, hc, hclose⟩ := wideValue?_add htotal hvalue hbelow
    have hfirst : |c - (a + x)| ≤ wideError * (|a| + |x|) :=
      hclose.trans (mul_le_mul_of_nonneg_left htriangle hcost.le)
    -- and the others theirs of what is left
    have hleft : |c| + mass ≤ (1 + wideError) * (|a| + (|x| + mass)) := by
      have hpartial := abs_sub_abs_le_abs_sub c (a + x)
      have hrest : 0 ≤ wideError * mass := mul_nonneg hcost.le hmass
      linarith
    obtain ⟨f, hf, hothers⟩ := ih hc (fun v hv => hfinite v (List.mem_cons_of_mem _ hv)) <|
      calc grown * (|c| + mass) ≤ grown * ((1 + wideError) * (|a| + (|x| + mass))) := by gcongr
        _ = grown * (1 + wideError) * (|a| + (|x| + mass)) := (mul_assoc _ _ _).symm
        _ ≤ wideLimit := hlimit
    refine ⟨f, hf, ?_⟩
    calc |f - (a + (x + sum))|
        ≤ |f - (c + sum)| + |c - (a + x)| := by
          have := abs_add_le (f - (c + sum)) (c - (a + x))
          rwa [show f - (c + sum) + (c - (a + x)) = f - (a + (x + sum)) by ring] at this
      _ ≤ (grown - 1) * (|c| + mass) + wideError * (|a| + |x|) := add_le_add hothers hfirst
      _ ≤ (grown - 1) * ((1 + wideError) * (|a| + (|x| + mass))) +
            wideError * (|a| + (|x| + mass)) := by
          gcongr
          linarith
      _ = (grown * (1 + wideError) - 1) * (|a| + (|x| + mass)) := by ring

/-! ## The growth of the costs -/

/-- Few steps cost no more than twice their number. -/
theorem one_add_pow_le {u : ℚ} (hu : 0 ≤ u) {k : ℕ} (hk : 2 * k * u ≤ 1) :
    (1 + u) ^ k ≤ 1 + 2 * k * u := by
  induction k with
  | zero => simp
  | succ k ih =>
    push_cast at hk ⊢
    have hsmall : 2 * k * u ≤ 1 := by linarith
    calc (1 + u) ^ (k + 1) = (1 + u) ^ k * (1 + u) := pow_succ _ _
      _ ≤ (1 + 2 * k * u) * (1 + u) := by
          gcongr
          exact ih hsmall
      _ = 1 + (2 * k * u + u + 2 * k * u * u) := by ring
      _ ≤ 1 + 2 * (k + 1) * u := by nlinarith

/-- Steps that double a number in groups of `j` take it to `2 ^ k` in `k` groups. -/
theorem pow_le_two_pow {r : ℚ} (hr : 1 ≤ r) {j k n : ℕ} (hj : r ^ j ≤ 2) (hn : n ≤ j * k) :
    r ^ n ≤ 2 ^ k :=
  calc r ^ n ≤ r ^ (j * k) := pow_le_pow_right₀ hr hn
    _ = (r ^ j) ^ k := pow_mul _ _ _
    _ ≤ 2 ^ k := pow_le_pow_left₀ (by positivity) hj _

/-- The costs of as many additions as a list in memory asks for leave a number in range. -/
theorem one_add_wideError_pow_le {n : ℕ} (hn : n ≤ 2 ^ 61) : (1 + wideError) ^ n ≤ 2 ^ 512 := by
  have hdouble : (1 + wideError) ^ 2 ^ 52 ≤ 2 := by
    have hgroup : 2 * ((2 ^ 52 : ℕ) : ℚ) * wideError = 1 := by norm_num [wideError]
    calc (1 + wideError) ^ 2 ^ 52 ≤ 1 + 2 * ((2 ^ 52 : ℕ) : ℚ) * wideError :=
          one_add_pow_le wideError_pos.le hgroup.le
      _ = 2 := by rw [hgroup]; norm_num
  exact pow_le_two_pow (by linarith [wideError_pos]) hdouble (hn.trans (by norm_num))

/-- The magnitudes of a list are bounded by its length. -/
theorem exactMass_le (weights : List Float32) : exactMass weights ≤ weights.length * 2 ^ 128 := by
  induction weights with
  | nil => simp [exactMass]
  | cons w rest ih =>
    have hw := abs_valueOf_lt w
    rw [exactMass_cons, List.length_cons]
    push_cast
    linarith

/-- No weight is larger than all magnitudes together. -/
theorem abs_valueOf_le_exactMass {weights : List Float32} {w : Float32} (hw : w ∈ weights) :
    |valueOf w| ≤ exactMass weights := by
  refine List.single_le_sum (fun x hx => ?_) _ (List.mem_map_of_mem hw)
  obtain ⟨v, -, rfl⟩ := List.mem_map.1 hx
  exact abs_nonneg _

end Stencil.Precision
