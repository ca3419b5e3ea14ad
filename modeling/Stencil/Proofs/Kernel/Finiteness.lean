import Stencil.Proofs.Kernel.Grammar
import Stencil.Proofs.Precision.Quotient
import Stencil.Proofs.Shader.Denotation
import Stencil.Settings

/-!
# Finite weights

The weights that a matrix is read as are finite, and without normalization they stay so.  A
normalization divides them by their sum, which is never NaN, and not zero.  It can be so small
beside a weight, when the weights cancel, that the quotient is beyond single precision.  Then the
weight is an infinity, and its declaration has no numeral.

## Key results

- `Kernel.divisor?_cases`: a divisor is an infinity, or a number other than zero
- `Kernel.isFinite_normalizeWeights_iff`: when normalized weights are finite
- `Settings.declarations_decimal_iff`: finite weights are the ones that are declared by a decimal
- `Settings.weights_finite_iff`: when the weights that settings ask for are finite
- `Settings.weights_not_always_finite`: settings with infinite weights
-/

namespace Stencil

namespace Precision

open Float.Model (Format UnpackedFloat)
open Float.Model.UnpackedFloat

/-! ## Sums -/

/-- What is rounded is not NaN. -/
private theorem round_ne_notANumber {spec : Format} {sign : Sign} {m : ℕ} {e : ℤ} :
    UnpackedFloat.round spec sign m e ≠ .notANumber := by
  unfold UnpackedFloat.round roundWithAccuracy
  dsimp only
  split <;> simp

/-- A number added to what is not NaN does not give NaN. -/
theorem add_ne_notANumber {x y : Float} {v : ℚ} (hx : x.toModel.unpack ≠ .notANumber)
    (hy : wideValue? y = some v) : (x + y).toModel.unpack ≠ .notANumber := by
  have hadd : (x + y).toModel.unpack = unpack .binary64 (pack .binary64
      (add .binary64 x.toModel.unpack y.toModel.unpack)) := rfl
  rw [hadd]
  refine unpack_pack_ne_notANumber ?_ (by decide)
  rcases decodedValue?_eq_some hy with ⟨s₂, hu₂, -⟩ | ⟨s₂, m₂, e₂, h₂, hu₂, -⟩
  · rw [hu₂]
    cases hu₁ : x.toModel.unpack with
    | notANumber => exact absurd hu₁ hx
    | infinity s₁ => simp [add]
    | zero s₁ =>
      show (if s₁ == s₂ then UnpackedFloat.zero s₁ else .zero .positive) ≠ _
      split <;> simp
    | finite s₁ m₁ e₁ h₁ => simp [add]
  · rw [hu₂]
    cases hu₁ : x.toModel.unpack with
    | notANumber => exact absurd hu₁ hx
    | infinity s₁ => simp [add]
    | zero s₁ => simp [add]
    | finite s₁ m₁ e₁ h₁ =>
      show UnpackedFloat.normalize .binary64 _ _ _ ≠ _
      unfold UnpackedFloat.normalize
      split
      · exact round_ne_notANumber
      · simp
      · exact round_ne_notANumber

end Precision

namespace Kernel

open Float.Model (UnpackedFloat)
open Precision (value? wideValue? widen narrow quotientLimit)

/-! ## Divisors -/

/-- The sum of finite weights is not NaN. -/
private theorem wideSum_ne_notANumber {weights : List Float32}
    (h : ∀ w ∈ weights, w.isFinite) : (wideSum weights).toModel.unpack ≠ .notANumber := by
  have hfold : ∀ (ws : List Float32) (total : Float), (∀ w ∈ ws, w.isFinite) →
      total.toModel.unpack ≠ .notANumber →
      (ws.foldl (fun total w => total + widen w) total).toModel.unpack ≠ .notANumber := by
    intro ws
    induction ws with
    | nil => exact fun total _ htotal => htotal
    | cons w rest ih =>
      intro total hws htotal
      have hw := hws w List.mem_cons_self
      rw [← Precision.isSome_value?, Option.isSome_iff_exists] at hw
      obtain ⟨x, hx⟩ := hw
      exact ih _ (fun w hw => hws w (List.mem_cons_of_mem _ hw))
        (Precision.add_ne_notANumber htotal (Precision.wideValue?_widen hx))
  refine hfold weights _ h ?_
  have hstart : Precision.negativeZeroWide.toModel.unpack = .zero .negative := rfl
  rw [hstart]
  simp

/-- The divisor of finite weights is an infinity, or a number other than zero. -/
theorem divisor?_cases {weights : List Float32} {d : Float} (h : ∀ w ∈ weights, w.isFinite)
    (hd : divisor? weights = some d) :
    (∃ sign, d.toModel.unpack = .infinity sign) ∨ ∃ v, wideValue? d = some v ∧ v ≠ 0 := by
  have hscale : (scale weights).toModel.unpack ≠ .notANumber := by
    unfold scale
    dsimp only
    split
    · exact wideSum_ne_notANumber fun w hw => h w (List.mem_of_mem_filter hw)
    · exact wideSum_ne_notANumber h
  unfold divisor? at hd
  dsimp only at hd
  split at hd
  · exact absurd hd (by simp)
  · rename_i hne
    obtain rfl := Option.some.inj hd
    cases hu : (scale weights).toModel.unpack with
    | notANumber => exact absurd hu hscale
    | infinity sign => exact Or.inl ⟨sign, rfl⟩
    | zero sign =>
      -- Both zeros are equal to zero
      refine absurd ?_ hne
      have hzero : Precision.zeroWide.toModel.unpack = .zero .positive := rfl
      show UnpackedFloat.beq (scale weights).toModel.unpack Precision.zeroWide.toModel.unpack
      rw [hu, hzero]
      cases sign <;> rfl
    | finite sign m e hm =>
      refine Or.inr ⟨sign.apply m * 2 ^ e, by rw [wideValue?, hu]; rfl, ?_⟩
      rw [← abs_pos, Precision.abs_apply]
      exact Precision.magnitude_pos hm e

/-- The quotients of finite weights and their divisor are finite when they lie below the limit. -/
theorem isFinite_normalizeWeights_iff {weights : List Float32} (h : ∀ w ∈ weights, w.isFinite) :
    (∀ w ∈ normalizeWeights weights, w.isFinite) ↔
      ∀ d v, divisor? weights = some d → wideValue? d = some v →
        ∀ w ∈ weights, ∀ x, value? w = some x → |x| < |v| * quotientLimit := by
  unfold normalizeWeights
  cases hd : divisor? weights with
  | none => simpa using h
  | some d =>
    have hvalues : ∀ w ∈ weights, ∃ x, value? w = some x := fun w hw => by
      rw [← Option.isSome_iff_exists, Precision.isSome_value?]
      exact h w hw
    have hmap : (∀ w ∈ weights.map fun w => narrow (widen w / d), w.isFinite) ↔
        ∀ w ∈ weights, (narrow (widen w / d)).isFinite := by simp
    dsimp only
    rw [hmap]
    rcases divisor?_cases h hd with ⟨sign, hu⟩ | ⟨v, hv, hne⟩
    · -- An infinite divisor has no value, and every quotient is zero
      refine iff_of_true (fun w hw => ?_) fun d' v hd' hv => ?_
      · obtain ⟨x, hx⟩ := hvalues w hw
        exact Precision.isFinite_narrow_div_of_isInf hx hu
      · obtain rfl := Option.some.inj hd'
        rw [wideValue?, hu] at hv
        exact absurd hv (by simp [Precision.decodedValue?])
    · constructor
      · intro hfinite d' v' hd' hv' w hw x hx
        obtain rfl := Option.some.inj hd'
        obtain rfl : v = v' := Option.some.inj (hv.symm.trans hv')
        exact (Precision.isFinite_narrow_div_iff hx hv hne).1 (hfinite w hw)
      · intro hlimit w hw
        obtain ⟨x, hx⟩ := hvalues w hw
        exact (Precision.isFinite_narrow_div_iff hx hv hne).2 (hlimit d v rfl hv w hw x hx)

end Kernel

namespace Settings

open Precision (value? wideValue? quotientLimit)
open Shader

/-! ## Declarations -/

/-- Whether a line declares a constant by a decimal numeral. -/
def DeclaresDecimal (dialect : Dialect) (line : String) : Prop :=
  ∃ declaration negative d,
    readDeclaration? dialect (line.toList ++ ['\n']) = some declaration ∧
    Numeral.read? declaration.literal = some (.decimal negative d)

/-- The weight of a tap is declared by a decimal numeral when it is finite. -/
theorem declaresDecimal_declaration_iff (dialect : Dialect) (tap : Kernel.Tap) :
    DeclaresDecimal dialect (Program.declaration dialect tap) ↔ tap.weight.isFinite := by
  have hread := readDeclaration?_declaration dialect tap
  rw [← Decimal.read?_fixed_decimal_iff (by decide : 0 < 6)]
  constructor
  · rintro ⟨declaration, negative, d, hdeclaration, hdecimal⟩
    obtain rfl := Option.some.inj (hread.symm.trans hdeclaration)
    exact ⟨negative, d, hdecimal⟩
  · rintro ⟨negative, d, hdecimal⟩
    exact ⟨_, negative, d, hread, hdecimal⟩

/-- All declarations of a program have a decimal numeral when all weights are finite. -/
theorem declarations_decimal_iff {k : Kernel} {config : Config} {program : Program}
    (h : Program.ofKernel k config = .ok program) :
    (∀ line ∈ program.declarations, DeclaresDecimal config.dialect line) ↔
      ∀ w ∈ k.weights, w.isFinite := by
  obtain ⟨taps, htaps, rfl⟩ := Program.exists_taps h
  rw [← Kernel.weights_of_taps htaps]
  simp only [List.forall_mem_map, declaresDecimal_declaration_iff]

/-! ## The weights of settings -/

/-- The weights that settings ask for are finite exactly when they are not normalized, or are
    normalized by a divisor beside which no weight is too large.  The declarations of a program have
    decimal numerals exactly when all weights are finite. -/
theorem weights_finite_iff {s : Settings} {raw : Kernel} (hraw : Kernel.parse s.matrix = .ok raw) :
    ∃ k, s.kernel = .ok k ∧
      ((∀ w ∈ k.weights, w.isFinite) ↔
        (s.normalize = true → ∀ d v, Kernel.divisor? raw.weights = some d → wideValue? d = some v →
          ∀ w ∈ raw.weights, ∀ x, value? w = some x → |x| < |v| * quotientLimit)) ∧
      ∀ config program, Program.ofKernel k config = .ok program →
        ((∀ line ∈ program.declarations, DeclaresDecimal config.dialect line) ↔
          ∀ w ∈ k.weights, w.isFinite) := by
  have hfinite : ∀ w ∈ raw.weights, w.isFinite := Kernel.isFinite_of_parseChars hraw
  refine ⟨if s.normalize then raw.normalized else raw, by rw [kernel, hraw], ?_,
    fun config program hprogram => declarations_decimal_iff hprogram⟩
  cases s.normalize with
  | false => simpa using hfinite
  | true =>
    rw [if_pos rfl, forall_prop_of_true rfl]
    exact Kernel.isFinite_normalizeWeights_iff hfinite

/-- The weights of the identity are finite, so none of them is too large beside its divisor. -/
theorem weights_finite_iff_identity :
    ∃ raw, Kernel.parse standard.matrix = .ok raw ∧
      ∀ d v, Kernel.divisor? raw.weights = some d → wideValue? d = some v →
        ∀ w ∈ raw.weights, ∀ x, value? w = some x → |x| < |v| * quotientLimit := by
  obtain ⟨raw, hraw⟩ : ∃ raw, Kernel.parse standard.matrix = .ok raw := ⟨_, rfl⟩
  obtain ⟨k, hk, hiff, -⟩ := weights_finite_iff hraw
  have hfinite : standard.kernel.toOption.any fun k => k.weights.all Float32.isFinite := by
    decide +kernel
  rw [hk] at hfinite
  exact ⟨raw, hraw, hiff.1 (List.all_eq_true.1 hfinite) rfl⟩

/-- Two weights that cancel up to a third leave a divisor of the size of the third, beside which they
    are too large. -/
theorem weights_not_always_finite :
    ∃ k program, Settings.kernel ⟨"3e38,-3e38,1e-7", true⟩ = .ok k ∧
      (¬ ∀ w ∈ k.weights, w.isFinite) ∧ Program.ofKernel k .standard = .ok program ∧
      "const float Filter0 = inf;" ∈ program.declarations := by
  have hrun : (Settings.kernel ⟨"3e38,-3e38,1e-7", true⟩).toOption.any fun k =>
      !k.weights.all Float32.isFinite && (Program.ofKernel k .standard).toOption.any fun program =>
        program.declarations.contains "const float Filter0 = inf;" := by
    decide +kernel
  cases hk : Settings.kernel ⟨"3e38,-3e38,1e-7", true⟩ with
  | error e => simp [hk, Except.toOption] at hrun
  | ok k =>
    cases hprogram : Program.ofKernel k .standard with
    | error e => simp [hk, hprogram, Except.toOption] at hrun
    | ok program =>
      simp only [hk, hprogram, Except.toOption, Option.any_some, Bool.and_eq_true,
        Bool.not_eq_true', List.contains_iff_mem] at hrun
      refine ⟨k, program, rfl, fun hall => ?_, hprogram, hrun.2⟩
      rw [List.all_eq_true.2 hall] at hrun
      exact absurd hrun.1 (by decide)

end Settings

end Stencil
