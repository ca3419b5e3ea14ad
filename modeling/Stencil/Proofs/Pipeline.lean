import Stencil.Proofs.Kernel.Grammar
import Stencil.Proofs.Shader.Generation
import Stencil.Settings

/-!
# From settings to shader text

What a matrix is read as is a rectangle that fits in memory, normalizing keeps it one, and a
rectangle that fits in memory has a program.  So the way from settings to shader text is never
abandoned, and there are three ways to be refused, of which the first that applies wins: the matrix
does not read, the template is written in another dialect, the placeholder is missing.

## Key results

- `kernel_eq_ok_iff`: the kernel of settings, from their matrix
- `kernel_bounds` / `kernel_shape`: the kernel of settings is consistent, has a weight, and fits in
  memory
- `shader_of_parse_error` / `shader_of_dialect_ne` / `shader_of_dialect_eq`: the outcome in each of
  the three cases
- `shader_classified`: the failures of the way from settings to shader text
-/

namespace Stencil.Settings

open Text

/-! ## The kernel of settings -/

/-- A text has no more characters than bytes. -/
private theorem length_le_byteLength (cs : List Char) : cs.length ≤ byteLength cs := by
  induction cs with
  | nil => exact Nat.le_refl 0
  | cons c cs ih =>
    have hsize := c.utf8Size_pos
    rw [List.length_cons, byteLength_cons]
    omega

/-- What a matrix is read as has a weight, and no more weights than its text has bytes. -/
private theorem parse_shape {s : String} {k : Kernel} (h : Kernel.parse s = .ok k) :
    k.isConsistent ∧ k.weights ≠ [] ∧ k.weights.length ≤ byteLength s.toList := by
  refine ⟨(Kernel.shape_of_parseChars h).2, Kernel.weights_ne_nil_of_parseChars h, ?_⟩
  exact Nat.le_trans (Kernel.length_weights_le h) (length_le_byteLength s.toList)

/-- The kernel of settings is that of their matrix, normalized if that is asked for. -/
theorem kernel_eq_ok_iff {s : Settings} {k : Kernel} :
    s.kernel = .ok k ↔
      ∃ raw, Kernel.parse s.matrix = .ok raw ∧ k = if s.normalize then raw.normalized else raw := by
  unfold kernel
  cases Kernel.parse s.matrix with
  | error cause => simp
  | ok raw =>
    simp only [Except.ok.injEq, exists_eq_left']
    exact eq_comm

/-- The kernel of settings whose matrix reads is consistent, has a weight, and no more weights than
    its text has bytes. -/
theorem kernel_bounds {s : Settings} {k : Kernel} (h : s.kernel = .ok k) :
    k.isConsistent ∧ k.weights ≠ [] ∧ k.weights.length ≤ byteLength s.matrix.toList := by
  obtain ⟨parsed, hparse, rfl⟩ := kernel_eq_ok_iff.1 h
  obtain ⟨hconsistent, hne, hle⟩ := parse_shape hparse
  split
  · -- Normalizing changes neither the sides nor the number of weights.
    have hcount := Kernel.length_normalized parsed
    refine ⟨by rw [Kernel.isConsistent_normalized, hconsistent], ?_, by omega⟩
    rw [← List.length_pos_iff] at hne ⊢
    omega
  · exact ⟨hconsistent, hne, hle⟩

/-- The kernel of settings fits in memory when its text does. -/
theorem kernel_shape {s : Settings} {k : Kernel} (h : s.kernel = .ok k)
    (hlength : byteLength s.matrix.toList < Kernel.weightLimit) :
    k.isConsistent ∧ k.weights ≠ [] ∧ k.weights.length ≤ Kernel.weightLimit := by
  obtain ⟨hconsistent, hne, hle⟩ := kernel_bounds h
  exact ⟨hconsistent, hne, by omega⟩

/-- Every weight of the kernel of settings has its tap, if a signed word can count the bytes of their
    matrix. -/
theorem taps_of_kernel {s : Settings} {k : Kernel} (h : s.kernel = .ok k)
    (hlength : (byteLength s.matrix.toList : Int) < Word.signedLimit) :
    k.taps = .ok k.tapList := by
  obtain ⟨hconsistent, hne, hle⟩ := kernel_bounds h
  exact Kernel.taps_eq_ok_of_lt hconsistent hne (by omega)

/-- Settings have a kernel when their matrix reads. -/
theorem exists_kernel {s : Settings} {k : Kernel} (h : Kernel.parse s.matrix = .ok k) :
    ∃ k', s.kernel = .ok k' :=
  ⟨_, kernel_eq_ok_iff.2 ⟨k, h, rfl⟩⟩

/-! ## The three cases -/

variable {s : Settings} {dialect : Dialect} {config : Shader.Config}

/-- A matrix that does not read is reported, whatever else may be wrong. -/
theorem shader_of_parse_error {cause : Kernel.Error} (h : Kernel.parse s.matrix = .error cause)
    (template : Template) : s.shader template config = .error (.refused (.kernel cause)) := by
  unfold shader kernel
  rw [h]

/-- A template in another dialect is reported when the matrix reads. -/
theorem shader_of_dialect_ne {k : Kernel} (h : Kernel.parse s.matrix = .ok k) (text : String)
    (hdialect : dialect ≠ config.dialect) :
    s.shader (Template.ofText text dialect) config =
      .error (.refused (.shader (.dialectMismatch dialect config.dialect))) := by
  obtain ⟨k', hk'⟩ := exists_kernel h
  have hrefused : Shader.generate k' (Template.ofText text dialect) config =
      .error (.refused (.dialectMismatch dialect config.dialect)) :=
    Shader.generate_of_dialect_ne hdialect
  unfold shader
  rw [hk']
  dsimp only
  rw [hrefused]
  rfl

/-- Otherwise there is shader text, or the placeholder is missing. -/
theorem shader_of_dialect_eq {k : Kernel} (h : Kernel.parse s.matrix = .ok k)
    (hlength : byteLength s.matrix.toList < Kernel.weightLimit) (text : String)
    (hdialect : dialect = config.dialect) :
    (∃ result, s.shader (Template.ofText text dialect) config = .ok result) ∨
      s.shader (Template.ofText text dialect) config =
        .error (.refused (.shader (.missingPlaceholder config.placeholder))) := by
  obtain ⟨k', hk'⟩ := exists_kernel h
  obtain ⟨hconsistent, hne, hcount⟩ := kernel_shape hk' hlength
  obtain ⟨after, hsplit⟩ := Template.splitAtByte?_preambleEnd text.toList
  have hcut := Template.cutAt_ofText dialect hsplit
  have hprogram := Shader.Program.ofKernel_eq_ok config hconsistent hne hcount
  have houtcome := Shader.generate_eq hcut hdialect hprogram
  unfold shader
  rw [hk']
  dsimp only
  rw [houtcome]
  split
  · exact Or.inr rfl
  · exact Or.inl ⟨_, rfl⟩

/-! ## The classification -/

/-- The way from settings to shader text is never abandoned, and its failures are these.  It fails
    for its matrix exactly when the matrix does not read.  When it does, the way fails for its
    template exactly when that is written in another dialect, and otherwise for nothing but a
    missing placeholder.  It never reports a rectangle that is not filled, or an empty one. -/
theorem shader_classified (s : Settings) (text : String) (dialect : Dialect)
    (config : Shader.Config) (hlength : byteLength s.matrix.toList < Kernel.weightLimit) :
    (∀ reason, s.shader (Template.ofText text dialect) config ≠ .error (.fault reason)) ∧
    (∀ cause, s.shader (Template.ofText text dialect) config = .error (.refused (.kernel cause)) ↔
      Kernel.parse s.matrix = .error cause) ∧
    (∀ found target, s.shader (Template.ofText text dialect) config =
        .error (.refused (.shader (.dialectMismatch found target))) ↔
      (∃ k, Kernel.parse s.matrix = .ok k) ∧ dialect ≠ config.dialect ∧
        found = dialect ∧ target = config.dialect) ∧
    ((∃ k, Kernel.parse s.matrix = .ok k) → dialect = config.dialect →
      (∃ result, s.shader (Template.ofText text dialect) config = .ok result) ∨
        s.shader (Template.ofText text dialect) config =
          .error (.refused (.shader (.missingPlaceholder config.placeholder)))) ∧
    (∀ width height count, s.shader (Template.ofText text dialect) config ≠
      .error (.refused (.shader (.sizeMismatch width height count)))) ∧
    s.shader (Template.ofText text dialect) config ≠ .error (.refused (.shader .emptyKernel)) := by
  -- The three cases, in the order in which the failures win
  cases hparse : Kernel.parse s.matrix with
  | error cause =>
    rw [shader_of_parse_error hparse]
    simp [eq_comm]
  | ok k =>
    by_cases hdialect : dialect = config.dialect
    · rcases shader_of_dialect_eq hparse hlength text hdialect with ⟨result, h⟩ | h
      · rw [h]
        simp [hdialect]
      · rw [h]
        simp [hdialect]
    · rw [shader_of_dialect_ne hparse text hdialect]
      simp [hdialect, eq_comm]

/-- The standard matrix reads, so the dialects are reported when the template has the other one. -/
theorem shader_classified_standard :
    byteLength standard.matrix.toList < Kernel.weightLimit ∧
    (∃ k, Kernel.parse standard.matrix = .ok k) ∧
    (∀ reason, standard.shader (Template.ofText Template.wgslText .wgsl) .standard ≠
      .error (.fault reason)) ∧
    standard.shader (Template.ofText Template.wgslText .wgsl) .standard =
      .error (.refused (.shader (.dialectMismatch .wgsl .glsl))) := by
  have hlength : byteLength standard.matrix.toList < Kernel.weightLimit := by decide
  have hparse : ∃ k, Kernel.parse standard.matrix = .ok k := ⟨_, rfl⟩
  obtain ⟨hfault, -, hdialect, -⟩ :=
    shader_classified standard Template.wgslText .wgsl .standard hlength
  exact ⟨hlength, hparse, hfault, (hdialect .wgsl .glsl).2 ⟨hparse, by decide, rfl, rfl⟩⟩

end Stencil.Settings
