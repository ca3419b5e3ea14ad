import Stencil.Proofs.Precision.Reciprocal
import Stencil.Proofs.Shader.Denotation
import Stencil.Proofs.Shader.Layout

/-!
# Where generated code samples a texture

Generated code multiplies the offset of a tap by a step that was declared with six decimal places,
and adds the product to a texture coordinate.  The step is the whole number of millionths nearest to
the exact reciprocal, for every size of a texture, so the error of a sample is known: it is the
offset times the distance of a million from the multiples of the size, in millionths of a pixel.
The sample stays in the pixel that the filter on the processor reads when this is below one half.

## Key results

- `exists_units_step`: the declared step in millionths
- `readsPixel_iff`: which offsets stay in their pixel
- `tap_readsPixel_iff`: the taps of a program in the source that is generated
-/

namespace Stencil

namespace Shader

open Text
open Precision (value?)

/-! ## Written numbers -/

/-- The value of a numeral as it is written, if it has one. -/
def writtenValue? (literal : List Char) : Option ℚ := (Numeral.read? literal).bind Numeral.value?

/-- A number with fixed places is written as a whole number of units of the last place, off by half
    a unit at most. -/
theorem exists_units_fixed {places : ℕ} (hplaces : 0 < places) {x : Float32} {v : ℚ}
    (hx : value? x = some v) :
    ∃ units : ℤ, writtenValue? (Decimal.fixed places x).toList = some (units / 10 ^ places : ℚ) ∧
      |(units : ℚ) - v * 10 ^ places| ≤ 1 / 2 := by
  obtain ⟨negative, units, hread, hclose⟩ := Decimal.fixed_close hplaces hx
  have hunit : (0 : ℚ) < 10 ^ places := by positivity
  have hvalue : (if negative then -Decimal.value ⟨units, -(places : ℤ)⟩
      else Decimal.value ⟨units, -(places : ℤ)⟩) =
        ((if negative then -units else units : ℤ) : ℚ) / 10 ^ places := by
    cases negative <;> simp [Decimal.value, div_eq_mul_inv]
  refine ⟨if negative then -units else units, ?_, ?_⟩
  · rw [writtenValue?, hread, ← hvalue]
    rfl
  · rw [hvalue] at hclose
    generalize (if negative then -(units : ℤ) else units) = n at *
    have hscale : (n : ℚ) - v * 10 ^ places = (n / 10 ^ places - v) * 10 ^ places := by
      rw [sub_mul, div_mul_cancel₀ _ hunit.ne']
    rw [hscale, abs_mul, abs_of_pos hunit, ← le_div_iff₀ hunit]
    refine hclose.trans (le_of_eq ?_)
    rw [zpow_neg, zpow_natCast, ← div_eq_mul_inv]

/-- A whole number is written as itself. -/
theorem writtenValue?_of_whole {places : ℕ} (hplaces : 0 < places) {x : Float32} {n : ℤ}
    (hx : value? x = some (n : ℚ)) :
    writtenValue? (Decimal.fixed places x).toList = some (n : ℚ) := by
  obtain ⟨units, hwritten, hclose⟩ := exists_units_fixed hplaces hx
  have hunits : units = n * 10 ^ places := by
    obtain ⟨hlow, hhigh⟩ := abs_le.1 hclose
    have hbelow : (units : ℚ) < (n * 10 ^ places + 1 : ℤ) := by push_cast; linarith
    have habove : ((n * 10 ^ places : ℤ) : ℚ) < (units + 1 : ℤ) := by push_cast; linarith
    have := Int.cast_lt.1 hbelow
    have := Int.cast_lt.1 habove
    omega
  rw [hwritten, hunits]
  push_cast
  rw [mul_div_cancel_right₀ _ (by positivity)]

/-! ## The declared step -/

/-- The declared step over one of `count` pixels is a whole number of millionths, and no other is
    nearer to the reciprocal. -/
theorem exists_units_step {count : ℕ} (hpos : 1 ≤ count) (hhigh : count < 2 ^ 32) :
    ∃ units : ℤ, writtenValue?
        (Decimal.fixed Dialect.constantPlaces (TexelSteps.step count)).toList =
          some (units / 10 ^ 6 : ℚ) ∧
      2 * |units * count - 10 ^ 6| ≤ (count : ℤ) := by
  obtain ⟨q, hq, hqpos, hqclose⟩ := TexelSteps.step_close hpos hhigh
  obtain ⟨units, hwritten, hclose⟩ :=
    exists_units_fixed (by decide : 0 < Dialect.constantPlaces) hq
  refine ⟨units, hwritten, ?_⟩
  have hcount : (1 : ℚ) ≤ count := by exact_mod_cast hpos
  -- The two roundings add up to less than half a unit and half a millionth of it
  have hsum : |(units : ℚ) * count - 10 ^ 6| < ((count : ℚ) + 1) / 2 := by
    have hsplit : (units : ℚ) * count - 10 ^ 6 =
        (units - q * 10 ^ Dialect.constantPlaces) * count + (q * count - 1) * 10 ^ 6 := by
      unfold Dialect.constantPlaces
      ring
    rw [hsplit]
    calc _ ≤ |((units : ℚ) - q * 10 ^ Dialect.constantPlaces) * count| +
          |(q * count - 1) * 10 ^ 6| := abs_add_le _ _
      _ ≤ 1 / 2 * count + 1 / 2 ^ 22 * 10 ^ 6 := by
          rw [abs_mul, abs_mul, Nat.abs_cast, abs_of_pos (by norm_num : (0 : ℚ) < 10 ^ 6)]
          gcongr
      _ < ((count : ℚ) + 1) / 2 := by linarith
  have hwhole : ((2 * |units * count - 10 ^ 6| : ℤ) : ℚ) < (count + 1 : ℤ) := by
    push_cast
    linarith
  have := Int.cast_lt.1 hwhole
  omega

/-- The distance of a million from the nearest multiple of a number. -/
def millionGap (count : ℕ) : ℕ := min (10 ^ 6 % count) (count - 10 ^ 6 % count)

/-- The multiple of a number that is nearest to a million has its distance. -/
theorem abs_sub_million {count : ℕ} (hpos : 1 ≤ count) {units : ℤ}
    (h : 2 * |units * count - 10 ^ 6| ≤ (count : ℤ)) :
    |units * count - 10 ^ 6| = (millionGap count : ℤ) := by
  have hdiv : (count : ℤ) * (10 ^ 6 / count : ℕ) + (10 ^ 6 % count : ℕ) = 10 ^ 6 := by
    exact_mod_cast Nat.div_add_mod (10 ^ 6) count
  have hlt : 10 ^ 6 % count < count := Nat.mod_lt _ hpos
  -- Two neighbouring multiples are at most as far from a million as they are apart
  have hsplit : units * count - 10 ^ 6 =
      (units - (10 ^ 6 / count : ℕ)) * count - (10 ^ 6 % count : ℕ) := by
    rw [← hdiv]
    ring
  rw [hsplit] at h ⊢
  unfold millionGap
  generalize units - ((10 ^ 6 / count : ℕ) : ℤ) = index at *
  generalize 10 ^ 6 % count = rest at *
  have hlow := neg_abs_le (index * count - rest : ℤ)
  have hhigh := le_abs_self (index * count - rest : ℤ)
  have hfirst : -1 < index := by
    by_contra hle
    have : index * count ≤ -1 * (count : ℤ) := mul_le_mul_of_nonneg_right (by omega) (by omega)
    omega
  have hlast : index < 2 := by
    by_contra hge
    have : 2 * (count : ℤ) ≤ index * count := mul_le_mul_of_nonneg_right (by omega) (by omega)
    omega
  obtain rfl | rfl : index = 0 ∨ index = 1 := by omega
  · rw [zero_mul, zero_sub, abs_neg, Nat.abs_cast] at h ⊢
    omega
  · rw [one_mul, abs_of_nonneg (by omega)] at h ⊢
    omega

/-! ## Samples -/

/-- A shift by some pixels, scaled by a step, is less than half a pixel off in a row of `count`
    pixels. -/
def ReadsPixel (count : ℕ) (step : ℚ) (shift : ℤ) : Prop :=
  |shift * step * count - shift| < 1 / 2

/-- The error of a sample is the shift times the error of the step, counted in millionths. -/
theorem readsPixel_iff {count : ℕ} {units : ℤ} (h : |units * count - 10 ^ 6| = (millionGap count : ℤ))
    (shift : ℤ) :
    ReadsPixel count (units / 10 ^ 6) shift ↔ 2 * shift.natAbs * millionGap count < 10 ^ 6 := by
  have hgap : |(units : ℚ) * count - 10 ^ 6| = (millionGap count : ℚ) := by exact_mod_cast h
  have herror : (shift : ℚ) * (units / 10 ^ 6) * count - shift =
      shift * (units * count - 10 ^ 6) / 10 ^ 6 := by ring
  have hshift : |(shift : ℚ)| = (shift.natAbs : ℚ) := by rw [Nat.cast_natAbs, Int.cast_abs]
  unfold ReadsPixel
  rw [herror, abs_div, abs_mul, hgap, hshift, abs_of_pos (by norm_num : (0 : ℚ) < 10 ^ 6),
    div_lt_iff₀ (by norm_num), ← Nat.cast_lt (α := ℚ)]
  generalize shift.natAbs = magnitude
  push_cast
  constructor <;> intro hlt <;> linarith

/-- The largest extent at which every shift inside it is sampled in its pixel. -/
def fineExtent : ℕ := 1441

/-- Up to that extent a shift of half the extent is less than half a pixel off. -/
theorem millionGap_of_le_fineExtent {count : ℕ} (h : count ≤ fineExtent) :
    2 * (count / 2) * millionGap count < 10 ^ 6 := by
  have hall : ∀ count < fineExtent + 1, 2 * (count / 2) * millionGap count < 10 ^ 6 := by
    decide +kernel
  exact hall count (Nat.lt_succ_of_le h)

/-- A million is nearer to zero than to any multiple of a number above two millions. -/
theorem millionGap_of_gt {count : ℕ} (h : 2 * 10 ^ 6 < count) : millionGap count = 10 ^ 6 := by
  unfold millionGap
  rw [Nat.mod_eq_of_lt (by omega)]
  omega

/-- What becomes of a shift along an axis of `count` pixels, given the step that is declared. -/
structure Sampled (count : ℕ) (step : ℚ) (shift : ℤ) : Prop where
  iff_gap : ReadsPixel count step shift ↔ 2 * shift.natAbs * millionGap count < 10 ^ 6
  of_fine : count ≤ fineExtent → ReadsPixel count step shift
  of_coarse : 2 * 10 ^ 6 < count → (ReadsPixel count step shift ↔ shift = 0)

/-- A step that is nearest to the reciprocal samples a shift by its gap. -/
private theorem sampled_of_units {count : ℕ} (hpos : 1 ≤ count) {units shift : ℤ}
    (hunits : 2 * |units * count - 10 ^ 6| ≤ (count : ℤ))
    (hshift : count ≤ fineExtent → 2 * shift.natAbs ≤ count) :
    Sampled count (units / 10 ^ 6) shift := by
  have hiff := readsPixel_iff (abs_sub_million hpos hunits) shift
  refine ⟨hiff, fun hfine => hiff.2 ?_, fun hcoarse => hiff.trans ?_⟩
  · have hhalf : shift.natAbs ≤ count / 2 := by
      have := hshift hfine
      omega
    calc 2 * shift.natAbs * millionGap count ≤ 2 * (count / 2) * millionGap count := by gcongr
      _ < 10 ^ 6 := millionGap_of_le_fineExtent hfine
  · rw [millionGap_of_gt hcoarse]
    omega

/-- The shift along an axis as it is written and as the filter takes it: the same whole number, and
    the exact one if it is short. -/
private theorem exists_written_shift (shift : ℤ) (hbound : shift.natAbs < 2 ^ 32) :
    ∃ taken : ℤ,
      writtenValue? (Decimal.fixed Dialect.offsetPlaces (Precision.ofInt shift)).toList =
        some (taken : ℚ) ∧
      Precision.toInt (Precision.ofInt shift) = taken ∧
      (shift.natAbs < 2 ^ 24 → taken = shift) := by
  obtain ⟨taken, hvalue, hclose, hexact⟩ :=
    Precision.value?_ofInt_close (hbound.le.trans (by norm_num))
  have hlimit : Word.signedLimit = 2 ^ 63 := rfl
  have hsize : |(taken : ℚ)| < 2 ^ 33 := by
    have hmagnitude : |(shift : ℚ)| = (shift.natAbs : ℚ) := by rw [Nat.cast_natAbs, Int.cast_abs]
    have hboundQ : (shift.natAbs : ℚ) < 2 ^ 32 := by exact_mod_cast hbound
    have htriangle := abs_sub_abs_le_abs_sub (taken : ℚ) shift
    rw [hmagnitude] at hclose htriangle
    linarith
  have hsizeZ : |taken| < 2 ^ 33 := by exact_mod_cast hsize
  obtain ⟨hlow, hhigh⟩ := abs_lt.1 hsizeZ
  exact ⟨taken, writtenValue?_of_whole (by decide) hvalue,
    Precision.toInt_of_value? hvalue (by omega) (by omega), hexact⟩

/-- The displacements of a kernel reach half its sides. -/
theorem shiftOf_le_half {k : Kernel} {index : ℕ} (hconsistent : k.isConsistent)
    (hindex : index < k.weights.length) :
    2 * (Kernel.shiftOf index k.width k.height).right.natAbs ≤ k.width ∧
      2 * (Kernel.shiftOf index k.width k.height).up.natAbs ≤ k.height := by
  have hproduct : k.width * k.height = k.weights.length := (Kernel.isConsistent_iff k).1 hconsistent
  rw [← hproduct] at hindex
  have hpositive : 0 < k.width := Nat.pos_of_mul_pos_right (Nat.zero_lt_of_lt hindex)
  have hcolumn : index % k.width < k.width := Nat.mod_lt index hpositive
  have hrow : index / k.width < k.height := Nat.div_lt_of_lt_mul hindex
  unfold Kernel.shiftOf
  generalize index % k.width = column at *
  generalize index / k.width = row at *
  dsimp only
  omega

/-- Source that is generated with a placeholder apart from the declarations holds the lines of the
    steps, one behind the other. -/
theorem generate_holds_steps {k : Kernel} {config : Config} {program : Program}
    (hprogram : Program.ofKernel k config = .ok program) (text : String)
    (hapart : Apart config.placeholder.toList (insertedDeclarations config program))
    (hoccurs : config.placeholder.toList <:+: text.toList) :
    ∃ before after, generate k (Template.ofText text config.dialect) config =
      .ok (String.ofList (before ++
        Template.declarationLine config.dialect stepXName config.steps.x ++
        Template.declarationLine config.dialect stepYName config.steps.y ++ after)) := by
  obtain ⟨before, after, hsplit⟩ : ∃ before after,
      splitAtByte? (Template.preambleEnd text.toList) text.toList = some (before, after) :=
    ⟨_, Template.splitAtByte?_preambleEnd text.toList⟩
  have hfound := occurs_iff.2 ((infix_spliced_iff hapart hsplit).2 hoccurs)
  rw [generate_eq (Template.cutAt_ofText config.dialect hsplit) rfl hprogram, hfound, if_neg,
    replace_spliced hapart, insertion]
  · refine ⟨replace config.placeholder.toList program.statement.toList before,
      program.declarationBlock.toList ++
        replace config.placeholder.toList program.statement.toList after, ?_⟩
    simp only [List.append_assoc]
  · rintro (hempty | hnot)
    · exact hapart.ne_nil hempty
    · exact absurd hnot (by decide)

/-- The line of a step is read as its name and literal. -/
private theorem readDeclaration?_step (dialect : Dialect) {name : String} (value : Float32)
    (hname : name = stepXName ∨ name = stepYName) :
    readDeclaration? dialect (Template.declarationLine dialect name value) =
      some ⟨name.toList, (Decimal.fixed Dialect.constantPlaces value).toList⟩ := by
  refine readDeclaration?_constant dialect value ?_ ?_
  all_goals rcases hname with rfl | rfl <;> decide

/-- The steps of a texture, as they are declared in generated source, sample a tap of a kernel no
    larger than the texture in the pixel that the filter on the processor reads, when the shift is
    not too large for the gap between a million and the multiples of the size.  Textures up to
    `fineExtent` are fine for all such kernels; above two million pixels the step is declared as
    zero, and every tap samples the same pixel. -/
theorem tap_readsPixel_iff {k : Kernel} (config : Config) {width height : ℕ}
    (hconsistent : k.isConsistent) (hne : k.weights ≠ [])
    (hcount : k.weights.length ≤ Kernel.weightLimit)
    (hcolumns : k.width ≤ width) (hrows : k.height ≤ height)
    (hwidth : width < 2 ^ 32) (hheight : height < 2 ^ 32)
    (hsteps : config.steps = TexelSteps.ofResolution width height) :
    ∃ taps program lineX lineY literalX literalY stepX stepY,
      k.taps = .ok taps ∧ Program.ofKernel k config = .ok program ∧
      program.terms = taps.map (Program.term config.dialect) ∧
      (∀ text, Apart config.placeholder.toList (insertedDeclarations config program) →
        config.placeholder.toList <:+: text.toList →
        ∃ before after, generate k (Template.ofText text config.dialect) config =
          .ok (String.ofList (before ++ lineX ++ lineY ++ after))) ∧
      readDeclaration? config.dialect lineX = some ⟨stepXName.toList, literalX⟩ ∧
      readDeclaration? config.dialect lineY = some ⟨stepYName.toList, literalY⟩ ∧
      writtenValue? literalX = some stepX ∧ writtenValue? literalY = some stepY ∧
      ∀ tap ∈ taps, ∃ offsetX offsetY, ∃ right up : ℤ,
        readTerm? config.dialect (Program.term config.dialect tap).toList =
          some ⟨offsetX, stepXName.toList, offsetY, stepYName.toList,
            (weightName tap.index).toList⟩ ∧
        writtenValue? offsetX = some (right : ℚ) ∧ writtenValue? offsetY = some (up : ℚ) ∧
        (Convolution.Step.ofTap tap).shift = ⟨right, up⟩ ∧
        Sampled width stepX right ∧ Sampled height stepY up := by
  obtain ⟨hcolumn, hrow, -, -⟩ := Kernel.sides_le_of_isConsistent hconsistent hne
  have htaps := Kernel.taps_eq_ok hconsistent hne hcount
  have hprogram := Program.ofKernel_eq_ok config hconsistent hne hcount
  have hstepX : config.steps.x = TexelSteps.step width := by rw [hsteps]; rfl
  have hstepY : config.steps.y = TexelSteps.step height := by rw [hsteps]; rfl
  have hfine : fineExtent = 1441 := rfl
  obtain ⟨unitsX, hwrittenX, hnearX⟩ := exists_units_step (hcolumn.trans_le hcolumns) hwidth
  obtain ⟨unitsY, hwrittenY, hnearY⟩ := exists_units_step (hrow.trans_le hrows) hheight
  rw [← hstepX] at hwrittenX
  rw [← hstepY] at hwrittenY
  refine ⟨_, _, _, _, _, _, _, _, htaps, hprogram, rfl, generate_holds_steps hprogram,
    readDeclaration?_step _ _ (Or.inl rfl), readDeclaration?_step _ _ (Or.inr rfl),
    hwrittenX, hwrittenY, fun tap htap => ?_⟩
  obtain ⟨⟨weight, index⟩, hcell, rfl⟩ := List.mem_map.1 htap
  obtain ⟨hrightHalf, hupHalf⟩ := shiftOf_le_half hconsistent (List.mem_zipIdx' hcell).1
  obtain ⟨right, hright, htakenX, hexactX⟩ :=
    exists_written_shift (Kernel.shiftOf index k.width k.height).right (by omega)
  obtain ⟨up, hup, htakenY, hexactY⟩ :=
    exists_written_shift (Kernel.shiftOf index k.width k.height).up (by omega)
  refine ⟨_, _, right, up, readTerm?_termOf config.dialect _, hright, hup, ?_, ?_, ?_⟩
  · rw [← htakenX, ← htakenY]
    rfl
  · refine sampled_of_units (hcolumn.trans_le hcolumns) hnearX fun hle => ?_
    rw [hexactX (by omega)]
    omega
  · refine sampled_of_units (hrow.trans_le hrows) hnearY fun hle => ?_
    rw [hexactY (by omega)]
    omega

/-- Every tap of a kernel of nine weights samples its pixel in a texture of the standard size. -/
theorem tap_readsPixel_iff_standard :
    Kernel.identity.isConsistent ∧ Kernel.identity.weights ≠ [] ∧
    Kernel.identity.weights.length ≤ Kernel.weightLimit ∧ Kernel.identity.width ≤ 800 ∧
    Kernel.identity.height ≤ 600 ∧ Config.standard.steps = TexelSteps.ofResolution 800 600 ∧
    ∃ taps lineX stepX, Kernel.identity.taps = .ok taps ∧
      (∃ before after, generate Kernel.identity (Template.ofText "$CONVOLUTION$" .glsl) .standard =
        .ok (String.ofList (before ++ lineX ++ after))) ∧
      (readDeclaration? .glsl lineX).bind (fun line => writtenValue? line.literal) = some stepX ∧
      ∀ tap ∈ taps, ReadsPixel 800 stepX (Convolution.Step.ofTap tap).shift.right := by
  have hconsistent : Kernel.identity.isConsistent := by decide
  have hne : Kernel.identity.weights ≠ [] := List.cons_ne_nil _ _
  have hcount : Kernel.identity.weights.length ≤ Kernel.weightLimit := by decide
  have hcolumns : Kernel.identity.width ≤ 800 := by decide
  have hrows : Kernel.identity.height ≤ 600 := by decide
  obtain ⟨taps, program, lineX, lineY, literalX, _, stepX, _, htaps, hprogram, -, hsource, hline, -,
    hliteral, -, hsampled⟩ := tap_readsPixel_iff .standard hconsistent hne hcount hcolumns
      hrows (by decide) (by decide) rfl
  have hwhole := Program.ofKernel_eq_ok .standard hconsistent hne hcount
  obtain rfl : program = _ := Except.ok.inj (hprogram.symm.trans hwhole)
  obtain ⟨before, after, hgenerate⟩ := hsource "$CONVOLUTION$" (apart_standardPlaceholder _ _)
    (List.infix_refl _)
  refine ⟨hconsistent, hne, hcount, hcolumns, hrows, rfl, taps, lineX, stepX, htaps,
    ⟨before, lineY ++ after, ?_⟩, ?_, fun tap htap => ?_⟩
  · rw [← List.append_assoc]
    exact hgenerate
  · rw [show Dialect.glsl = Config.standard.dialect from rfl, hline]
    exact hliteral
  · obtain ⟨-, -, right, up, -, -, -, hshift, hsample, -⟩ := hsampled tap htap
    rw [hshift]
    exact hsample.of_fine (by decide)

/-- In a row of four million pixels the step is declared as zero, so the tap on the right samples
    the pixel in the middle. -/
theorem taps_not_always_in_pixel :
    ∃ before line after step tap,
      generate ⟨[0, 0, 1], 3, 1⟩ (Template.ofText "$CONVOLUTION$" .glsl)
          { Config.standard with steps := TexelSteps.ofResolution 4000000 1 } =
        .ok (String.ofList (before ++ line ++ after)) ∧
      readDeclaration? .glsl line = some ⟨stepXName.toList, "0.000000".toList⟩ ∧
      writtenValue? "0.000000".toList = some step ∧
      Kernel.tap ⟨[0, 0, 1], 3, 1⟩ 2 1 = .ok tap ∧
      (Convolution.Step.ofTap tap).shift.right = 1 ∧
      ¬ ReadsPixel 4000000 step (Convolution.Step.ofTap tap).shift.right := by
  have hprogram : Program.ofKernel ⟨[0, 0, 1], 3, 1⟩
      { Config.standard with steps := TexelSteps.ofResolution 4000000 1 } = .ok _ :=
    Program.ofKernel_eq_ok _ (by decide) (List.cons_ne_nil _ _) (by decide)
  obtain ⟨before, after, hsource⟩ := generate_holds_steps hprogram "$CONVOLUTION$"
    (apart_standardPlaceholder _ _) (List.infix_refl _)
  rw [List.append_assoc (_ ++ _)] at hsource
  have hfixed : Decimal.fixed Dialect.constantPlaces (TexelSteps.step 4000000) = "0.000000" := by
    decide +kernel
  have hread := readDeclaration?_step .glsl (TexelSteps.step 4000000) (Or.inl rfl)
  rw [hfixed] at hread
  have hliteral : Numeral.read? "0.000000".toList = some (.decimal false ⟨0, -6⟩) := by
    decide +kernel
  have hwritten : writtenValue? "0.000000".toList = some 0 := by
    rw [writtenValue?, hliteral]
    simp [Numeral.value?, Decimal.value]
  have htap : Kernel.tap ⟨[0, 0, 1], 3, 1⟩ 2 1 =
      .ok ⟨2, 1, ⟨Precision.ofInt 1, Precision.ofInt 0⟩⟩ := by decide +kernel
  have hshift : (Convolution.Step.ofTap
      ⟨2, 1, ⟨Precision.ofInt 1, Precision.ofInt 0⟩⟩).shift.right = 1 := by decide +kernel
  refine ⟨before, _, _, 0, _, hsource, hread, hwritten, htap, hshift, ?_⟩
  rw [hshift]
  norm_num [ReadsPixel]

end Shader

end Stencil
