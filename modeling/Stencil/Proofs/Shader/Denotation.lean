import Stencil.Proofs.Kernel.Pointwise
import Stencil.Proofs.Precision.Value
import Stencil.Proofs.Shader.Generation
import Stencil.Proofs.Shader.Reading

/-!
# Generated code denotes the filter

The text of a program and the filter on the processor are made from the same taps in two ways: the
text writes the offset of a tap with one decimal place, and the filter takes it back to whole steps.
For sides up to `2 ^ 25 + 1` every displacement is a whole number of at most 24 bits, so both are
exact, and the text read back says what the filter does.

## Key results

- `readTerm?_term`: the term of a weight says the same displacement
- `program_denotes`: the whole text, read back, beside the steps of the filter
-/

namespace Stencil

namespace Shader

open Text

/-! ## The phrases of a program -/

variable {k : Kernel} {config : Config}

/-- The name of a weight holds letters and digits only. -/
private theorem not_mem_weightName_of_mem {index : Nat} {c : Char} (h : c ∈ [' ', ':', '\n']) :
    c ∉ (weightName index).toList := by
  simp only [List.mem_cons, List.not_mem_nil, or_false] at h
  rcases h with rfl | rfl | rfl
  · exact not_mem_weightName (by decide) (by decide)
  · exact not_mem_weightName (by decide) (by decide)
  · exact not_mem_weightName (by decide) (by decide)

/-- The line that declares the weight of a tap is read as its name and its literal. -/
theorem readDeclaration?_declaration (dialect : Dialect) (tap : Kernel.Tap) :
    readDeclaration? dialect ((Program.declaration dialect tap).toList ++ ['\n']) =
      some ⟨(weightName tap.index).toList, (Decimal.fixed 6 tap.weight).toList⟩ :=
  readDeclaration?_constant dialect tap.weight (not_mem_weightName_of_mem (by decide))
    (not_mem_weightName_of_mem (by decide))

/-- The term of a tap is read as its offset, behind the names of the steps and of the weight. -/
theorem readTerm?_termOf (dialect : Dialect) (tap : Kernel.Tap) :
    readTerm? dialect (Program.term dialect tap).toList =
      some ⟨(Decimal.fixed Dialect.offsetPlaces tap.offset.x).toList, stepXName.toList,
        (Decimal.fixed Dialect.offsetPlaces tap.offset.y).toList, stepYName.toList,
        (weightName tap.index).toList⟩ :=
  readTerm?_fetch dialect tap.offset.x tap.offset.y _ (by decide) (by decide)

/-- The term of a weight is read as the displacement of the weight, in whole numbers. -/
theorem readTerm?_term (dialect : Dialect) {index : Nat} (weight : Float32)
    (hright : IsShort (Kernel.shiftOf index k.width k.height).right)
    (hup : IsShort (Kernel.shiftOf index k.width k.height).up) :
    readTerm? dialect (Program.term dialect (k.tapAt index weight)).toList =
      some ⟨(toString (Kernel.shiftOf index k.width k.height).right ++ ".0").toList,
        stepXName.toList,
        (toString (Kernel.shiftOf index k.width k.height).up ++ ".0").toList,
        stepYName.toList, (weightName index).toList⟩ := by
  rw [← Precision.fixed_ofInt hright.1 hright.2, ← Precision.fixed_ofInt hup.1 hup.2]
  exact readTerm?_termOf dialect (k.tapAt index weight)

/-- No declaration of a weight holds a line feed. -/
private theorem feed_not_mem_declaration (dialect : Dialect) (tap : Kernel.Tap) :
    '\n' ∉ (Program.declaration dialect tap).toList := by
  refine not_mem_constant (not_mem_weightName_of_mem (by decide)) (by decide) (by decide) ?_
  cases dialect with
  | glsl => decide
  | wgsl => decide

/-- No term holds a line feed. -/
private theorem feed_not_mem_term (dialect : Dialect) (tap : Kernel.Tap) :
    '\n' ∉ (Program.term dialect tap).toList := by
  refine not_mem_fetch ⟨by decide, by decide, not_mem_weightName_of_mem (by decide)⟩ (by decide)
    (by decide) ?_ (by decide)
  cases dialect with
  | glsl => decide
  | wgsl => decide

/-! ## The whole text -/

/-- The lines of the declarations are one for each tap. -/
theorem lines_declarationBlock (config : Config) (hne : k.weights ≠ []) :
    lines (Program.whole k config).declarationBlock.toList =
      k.tapList.map fun tap => (Program.declaration config.dialect tap).toList ++ ['\n'] := by
  have hfull : (Program.whole k config).declarations.map String.toList ≠ [] := by
    simpa [Program.whole, Kernel.tapList] using hne
  have hfree : ∀ line ∈ (Program.whole k config).declarations.map String.toList, '\n' ∉ line := by
    intro line hline
    obtain ⟨declaration, hdeclaration, rfl⟩ := List.mem_map.1 hline
    obtain ⟨tap, -, rfl⟩ := List.mem_map.1 hdeclaration
    exact feed_not_mem_declaration config.dialect tap
  rw [Program.declarationBlock, String.toList_append, String.toList_intercalate]
  exact (lines_intercalate hfull hfree).trans (by simp [Program.whole, Function.comp_def])

/-- The statement is read as one term for each tap. -/
theorem readStatement?_whole (config : Config) (hne : k.weights ≠ []) :
    readStatement? config.outputVariable (Program.whole k config).statement.toList =
      some (k.tapList.map fun tap => (Program.term config.dialect tap).toList) := by
  have hfull : (Program.whole k config).terms ≠ [] := by
    simpa [Program.whole, Kernel.tapList] using hne
  have hfree : ∀ term ∈ (Program.whole k config).terms, '\n' ∉ term.toList := by
    intro term hterm
    obtain ⟨tap, -, rfl⟩ := List.mem_map.1 hterm
    exact feed_not_mem_term config.dialect tap
  exact (readStatement?_statement hfull hfree).trans (by simp [Program.whole, Function.comp_def])

/-- A weight that is finite is within `5 / 10 ^ 7` of its literal. -/
private theorem literal_close {weight : Float32} (h : weight.isFinite) :
    ∃ v q, Precision.value? weight = some v ∧
      (Numeral.read? (Decimal.fixed 6 weight).toList).bind Numeral.value? = some q ∧
      |q - v| ≤ 5 / 10 ^ 7 := by
  rw [← Precision.isSome_value?, Option.isSome_iff_exists] at h
  obtain ⟨v, hv⟩ := h
  obtain ⟨negative, units, hread, hclose⟩ := Decimal.fixed_close (by decide : 0 < 6) hv
  refine ⟨v, _, hv, by rw [hread]; rfl, le_trans hclose ?_⟩
  norm_num

/-- The text of a program, read back, says what the filter on the processor does.  There is a line
    for each weight, which alone declares the name of the weight, with the weight rounded to six
    places.  There is a term for each weight, which multiplies by that name, and whose offsets are
    the decimals of the whole numbers that the filter adds to the coordinates of a pixel for this
    weight, before it keeps them inside the image. -/
theorem program_denotes (k : Kernel) (config : Config) (hconsistent : k.isConsistent)
    (hne : k.weights ≠ []) (hwidth : k.width ≤ sideLimit) (hheight : k.height ≤ sideLimit) :
    ∃ program taps declared terms,
      Program.ofKernel k config = .ok program ∧ k.taps = .ok taps ∧
      (∀ image : Image, image.width * image.height * image.channels = image.samples.size →
        0 < image.samples.size → image.samples.size ≤ Kernel.weightLimit →
        ∃ dst, k.convolve image = .ok dst ∧ dst.length = image.samples.size ∧
          ∀ x < image.width, ∀ y < image.height, ∀ c < image.channels,
            dst[(y * image.width + x) * image.channels + c]? = some
              (Convolution.steppedSum (taps.map Convolution.Step.ofTap) image x y c)) ∧
      lines program.declarationBlock.toList = declared ∧
      declared.length = k.weights.length ∧
      program.statement.toList = config.outputVariable.toList ++ " = ".toList ++
        " +\n".toList.intercalate terms ++ ";\n".toList ∧
      readStatement? config.outputVariable program.statement.toList = some terms ∧
      terms.length = k.weights.length ∧
      ∀ i weight, k.weights[i]? = some weight →
        (∃ line literal, declared[i]? = some line ∧
          readDeclaration? config.dialect line = some ⟨(weightName i).toList, literal⟩ ∧
          literal = (Decimal.fixed 6 weight).toList ∧
          (weight.isFinite → ∃ v q, Precision.value? weight = some v ∧
            (Numeral.read? literal).bind Numeral.value? = some q ∧ |q - v| ≤ 5 / 10 ^ 7)) ∧
        (∀ j line declaration, declared[j]? = some line →
          readDeclaration? config.dialect line = some declaration →
          declaration.name = (weightName i).toList → j = i) ∧
        ∃ term step, terms[i]? = some term ∧
          (taps.map Convolution.Step.ofTap)[i]? = some step ∧ step.weight = weight ∧
          step.shift = Kernel.shiftOf i k.width k.height ∧
          readTerm? config.dialect term =
            some ⟨(toString step.shift.right ++ ".0").toList, stepXName.toList,
              (toString step.shift.up ++ ".0").toList, stepYName.toList,
              (weightName i).toList⟩ := by
  have hcount := Kernel.weights_le_of_sides_le hconsistent hwidth hheight
  have htaps := Kernel.taps_eq_ok hconsistent hne hcount
  have hlines := lines_declarationBlock config hne
  have hterms := readStatement?_whole config hne
  refine ⟨_, _, _, _, Program.ofKernel_eq_ok config hconsistent hne hcount, htaps, ?_, hlines,
    by simp, ?_, hterms, by simp, ?_⟩
  · -- The steps of the taps are those of the weights, which the stencil is made of
    intro image hsize hpositive hmemory
    have hfilling := Convolution.filling_of_product hsize hpositive hmemory
    refine ⟨_, Kernel.convolve_eq_stencils hconsistent hne hwidth hheight hfilling hmemory,
      Convolution.length_stencils k image, fun x hx y hy c hc => ?_⟩
    rw [hfilling.getElem?_stencils k hx hy hc, Convolution.stencilAt_eq_steppedSum,
      Convolution.map_ofTap_tapList hconsistent hwidth hheight]
  · rw [toList_statement]
    simp [Program.whole, Function.comp_def]
  intro i weight hweight
  have htap : k.tapList[i]? = some (k.tapAt i weight) := by
    rw [Kernel.getElem?_tapList, hweight]
    rfl
  refine ⟨?_, ?_, ?_⟩
  · -- The line of the weight.
    have hread := readDeclaration?_declaration config.dialect (k.tapAt i weight)
    refine ⟨_, _, ?_, hread, rfl, literal_close⟩
    rw [List.getElem?_map, htap, Option.map_some]
  · -- Any line with the name is the line of the weight, as names tell indices apart.
    intro j line declaration hline hread hname
    rw [List.getElem?_map, Option.map_eq_some_iff] at hline
    obtain ⟨tap, htapj, rfl⟩ := hline
    rw [Kernel.getElem?_tapList, Option.map_eq_some_iff] at htapj
    obtain ⟨other, -, rfl⟩ := htapj
    rw [readDeclaration?_declaration] at hread
    obtain rfl := Option.some.inj hread
    exact weightName_injective (String.toList_inj.1 hname)
  · -- The term of the weight.
    have hindex : i < k.weights.length := (List.getElem?_eq_some_iff.1 hweight).1
    obtain ⟨hright, hup⟩ := shiftOf_bounds hconsistent hindex hwidth hheight
    have hstep := Convolution.ofTap_tapAt weight hright hup
    have hread := readTerm?_term config.dialect weight hright hup
    refine ⟨_, ⟨Kernel.shiftOf i k.width k.height, weight⟩, ?_, ?_, rfl, rfl, hread⟩
    · rw [List.getElem?_map, htap, Option.map_some]
    · rw [List.getElem?_map, htap, Option.map_some, hstep]

/-- Of a row whose last weight alone is not zero, that weight is `Filter2` and scales the pixel on the
    right, and the filter on the processor takes the pixel on the right as well. -/
theorem program_denotes_row :
    Kernel.isConsistent ⟨[0, 0, 1], 3, 1⟩ ∧ [(0 : Float32), 0, 1] ≠ [] ∧
    3 ≤ sideLimit ∧ 1 ≤ sideLimit ∧
    ∃ program terms term, Program.ofKernel ⟨[0, 0, 1], 3, 1⟩ .standard = .ok program ∧
      readStatement? "result" program.statement.toList = some terms ∧ terms.length = 3 ∧
      terms[2]? = some term ∧
      readTerm? .glsl term = some ⟨"1.0".toList, "TextureStepX".toList, "0.0".toList,
        "TextureStepY".toList, "Filter2".toList⟩ ∧
      2 * 1 * 1 = #[(5 : Float32), 7].size ∧
      ∃ dst, Kernel.convolve ⟨[0, 0, 1], 3, 1⟩ ⟨#[5, 7], 2, 1, 1⟩ = .ok dst ∧ dst[0]? = some 7 := by
  have hconsistent : Kernel.isConsistent ⟨[0, 0, 1], 3, 1⟩ := by decide
  have hne : [(0 : Float32), 0, 1] ≠ [] := List.cons_ne_nil _ _
  have hwidth : 3 ≤ sideLimit := by decide
  have hheight : 1 ≤ sideLimit := by decide
  obtain ⟨program, taps, declared, terms, hprogram, htaps, hfilter, -, -, -, hread, hlength,
    hweights⟩ := program_denotes ⟨[0, 0, 1], 3, 1⟩ .standard hconsistent hne hwidth hheight
  obtain ⟨-, -, term, step, hterm, -, -, hshift, hfetch⟩ := hweights 2 1 rfl
  rw [hshift] at hfetch
  obtain ⟨dst, hconvolve, -, hpixels⟩ := hfilter ⟨#[5, 7], 2, 1, 1⟩ rfl (by decide) (by decide)
  refine ⟨hconsistent, hne, hwidth, hheight, program, terms, term, hprogram, hread, hlength, hterm,
    hfetch, rfl, dst, hconvolve, (hpixels 0 (by decide) 0 (by decide) 0 (by decide)).trans ?_⟩
  obtain rfl := Except.ok.inj (htaps.symm.trans (Kernel.taps_eq_ok hconsistent hne (by decide)))
  decide +kernel

end Shader

end Stencil
