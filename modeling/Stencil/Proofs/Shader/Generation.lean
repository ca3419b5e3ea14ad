import Stencil.Proofs.Kernel.Taps
import Stencil.Proofs.Shader.Cursor
import Stencil.Shader.Program

/-!
# What generation computes

The steps of `generate` composed: for a kernel that has a program, nothing is abandoned on the way,
and the result is the placeholder replaced in the template with the declarations spliced in.

## Key results

- `Program.ofKernel_eq_ok`: a consistent kernel that fits in memory has a program
- `Program.exists_taps`: a program is made of the taps of its kernel
- `generate_of_dialect_ne`: a template in another dialect is refused before anything else
- `generate_eq`: the outcome of every other generation
-/

namespace Stencil.Shader

open Text

/-! ## The program -/

/-- The program of a kernel: a declaration and a term for every weight. -/
def Program.whole (k : Kernel) (config : Config) : Program :=
  ⟨k.tapList.map (declaration config.dialect), k.tapList.map (term config.dialect),
    config.outputVariable⟩

/-- A consistent kernel whose weights have their taps has its program. -/
theorem Program.ofKernel_of_taps {k : Kernel} (config : Config) (hconsistent : k.isConsistent)
    (hne : k.weights ≠ []) (htaps : k.taps = .ok k.tapList) :
    ofKernel k config = .ok (whole k config) := by
  have hfull : k.weights.isEmpty = false := List.isEmpty_eq_false_iff.2 hne
  unfold ofKernel
  rw [hconsistent, hfull, htaps]
  rfl

/-- A consistent kernel that fits in memory has its program. -/
theorem Program.ofKernel_eq_ok {k : Kernel} (config : Config) (hconsistent : k.isConsistent)
    (hne : k.weights ≠ []) (hcount : k.weights.length ≤ Kernel.weightLimit) :
    ofKernel k config = .ok (whole k config) :=
  ofKernel_of_taps config hconsistent hne (Kernel.taps_eq_ok hconsistent hne hcount)

/-- A program is made of the taps of its kernel. -/
theorem Program.exists_taps {k : Kernel} {config : Config} {program : Program}
    (h : ofKernel k config = .ok program) :
    ∃ taps, k.taps = .ok taps ∧
      program = ⟨taps.map (declaration config.dialect), taps.map (term config.dialect),
        config.outputVariable⟩ := by
  unfold ofKernel at h
  cases hconsistent : k.isConsistent with
  | false =>
    rw [hconsistent] at h
    exact nomatch h
  | true =>
    cases hempty : k.weights.isEmpty with
    | true =>
      rw [hconsistent, hempty] at h
      exact nomatch h
    | false =>
      rw [hconsistent, hempty] at h
      obtain ⟨taps, htaps, h⟩ := bind_eq_ok_iff.1 h
      obtain rfl := pure_eq_ok_iff.1 h
      exact ⟨taps, Failure.ofFaulty_eq_ok_iff.1 htaps, rfl⟩

/-! ## The text around it -/

/-- What is inserted at the cursor of a template: the lines of the two steps, then those of the
    weights. -/
def insertion (config : Config) (program : Program) : List Char :=
  Template.declarationLine config.dialect stepXName config.steps.x ++
    Template.declarationLine config.dialect stepYName config.steps.y ++
    program.declarationBlock.toList

/-- A template in another dialect is refused before anything else. -/
theorem generate_of_dialect_ne {k : Kernel} {template : Template} {config : Config}
    (h : template.dialect ≠ config.dialect) :
    generate k template config =
      .error (.refused (.dialectMismatch template.dialect config.dialect)) := by
  unfold generate
  rw [if_pos h]
  rfl

/-- With a template in the right dialect and a kernel that has a program, generation replaces the
    placeholder in the template extended by the declarations, unless there is none to replace. -/
theorem generate_eq {k : Kernel} {template : Template} {config : Config} {program : Program}
    {before after : List Char} (hcut : template.CutAt before after)
    (hdialect : template.dialect = config.dialect)
    (hprogram : Program.ofKernel k config = .ok program) :
    generate k template config =
      if config.placeholder.toList = [] ∨
          !occurs config.placeholder.toList (before ++ insertion config program ++ after) then
        .error (.refused (.missingPlaceholder config.placeholder))
      else
        .ok (String.ofList (replace config.placeholder.toList program.statement.toList
          (before ++ insertion config program ++ after))) := by
  -- The three insertions, each behind what was inserted before it.
  obtain ⟨withX, hX, hdialectX, hcutX⟩ :=
    Template.declare_eq_ok hcut stepXName config.steps.x
  obtain ⟨withSteps, hSteps, hdialectSteps, hcutSteps⟩ :=
    Template.declare_eq_ok hcutX stepYName config.steps.y
  have hdeclared := Template.insert_eq_ok hcutSteps program.declarationBlock
  have hcutDeclared := Template.cutAt_extended hcutSteps program.declarationBlock
  have hparts : before ++ Template.declarationLine template.dialect stepXName config.steps.x ++
      Template.declarationLine withX.dialect stepYName config.steps.y ++
      program.declarationBlock.toList = before ++ insertion config program := by
    rw [hdialectX, hdialect, insertion]
    simp only [List.append_assoc]
  rw [hparts] at hcutDeclared
  unfold generate
  rw [if_neg (not_not_intro hdialect), hprogram]
  simp only [hX, hSteps, hdeclared, Failure.ofFaulty_ok, ok_bind]
  rw [Template.substitute_eq hcutDeclared]
  split
  · rfl
  · rfl

end Stencil.Shader
