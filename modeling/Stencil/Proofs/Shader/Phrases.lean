import Stencil.Proofs.Decimal.Written
import Stencil.Shader.Program

/-!
# The phrases of generated code

The fixed words of declarations and texture reads, and what stands between them.  The characters of
a declaration are bounded, so that a token can be told apart from all of them.

## Key results

- `Dialect.toList_constant` / `Dialect.toList_fetch`: a declaration and a texture read, taken apart
- `not_mem_constant` / `not_mem_fetch`: which characters they do not hold
- `weightName_injective`: weights with different indices have different names
-/

namespace Stencil

/-! ## Declarations and texture reads taken apart -/

namespace Dialect

/-- A string written into another is the string. -/
theorem toString_string (s : String) : toString s = s := rfl

/-- The words before the name of a constant. -/
def constantStart : Dialect → List Char
  | .glsl => "const float ".toList
  | .wgsl => "const ".toList

/-- The words between the name of a constant and its literal. -/
def constantMiddle : Dialect → List Char
  | .glsl => " = ".toList
  | .wgsl => ": f32 = ".toList

/-- The words before the offset of a texture read. -/
def fetchStart : Dialect → List Char
  | .glsl => "texture2D(Texture0, TextureCoord + vec2(".toList
  | .wgsl => "textureSample(texture0, sampler0, tex_coord + vec2<f32>(".toList

/-- A declaration is a name and a literal between fixed words. -/
theorem toList_constant (dialect : Dialect) (name : String) (value : Float32) :
    (dialect.constant name value).toList = dialect.constantStart ++ (name.toList ++
      (dialect.constantMiddle ++ ((Decimal.fixed constantPlaces value).toList ++ [';']))) := by
  have hend : ";".toList = [';'] := rfl
  unfold constant
  rw [← hend]
  cases dialect with
  | glsl =>
    simp only [String.toList_append, toString_string, List.append_assoc]
    rfl
  | wgsl =>
    simp only [String.toList_append, toString_string, List.append_assoc]
    rfl

/-- A texture read is an offset of two products and a weight between fixed words. -/
theorem toList_fetch (dialect : Dialect) (x y : Float32) (stepX stepY weight : String) :
    (dialect.fetch x y stepX stepY weight).toList = dialect.fetchStart ++
      ((Decimal.fixed offsetPlaces x).toList ++ (" * ".toList ++ (stepX.toList ++ (", ".toList ++
        ((Decimal.fixed offsetPlaces y).toList ++ (" * ".toList ++ (stepY.toList ++
          (")) * ".toList ++ weight.toList)))))))) := by
  unfold fetch
  cases dialect with
  | glsl =>
    simp only [String.toList_append, toString_string, List.append_assoc]
    rfl
  | wgsl =>
    simp only [String.toList_append, toString_string, List.append_assoc]
    rfl

end Dialect

namespace Shader

/-! ## Names -/

/-- A weight is named by the common start and its index. -/
theorem toList_weightName (index : Nat) :
    (weightName index).toList = weightNameStart.toList ++ Nat.toDigits 10 index := by
  rw [weightName, String.toList_append, String.toList_ofList]

/-- Weights with different indices have different names. -/
theorem weightName_injective {i j : Nat} (h : weightName i = weightName j) : i = j := by
  have hlists := congrArg String.toList h
  rw [toList_weightName, toList_weightName, List.append_cancel_left_eq] at hlists
  rw [← Nat.ofDigitChars_ten_toDigits (n := i), hlists, Nat.ofDigitChars_ten_toDigits]

/-! ## Characters -/

/-- What stands in the name of a weight is a digit or stands in the common start. -/
theorem not_mem_weightName {index : Nat} {c : Char} (hdigit : c.isDigit = false)
    (hstart : c ∉ weightNameStart.toList) : c ∉ (weightName index).toList := by
  rw [toList_weightName, List.mem_append, not_or]
  refine ⟨hstart, fun hc => ?_⟩
  have hmem := Nat.isDigit_of_mem_toDigits (by decide) (by decide) hc
  rw [hdigit] at hmem
  exact absurd hmem (by decide)

/-- A declaration holds the characters of its name, of numbers, and of the fixed words. -/
theorem not_mem_constant {dialect : Dialect} {name : String} {value : Float32} {c : Char}
    (hname : c ∉ name.toList) (hdigit : c.isDigit = false) (hmark : c ∉ Decimal.marks)
    (hwords : c ∉ dialect.constantStart ++ dialect.constantMiddle ++ [';']) :
    c ∉ (dialect.constant name value).toList := by
  have hliteral : c ∉ (Decimal.fixed Dialect.constantPlaces value).toList :=
    Decimal.not_mem_fixed hdigit hmark
  rw [Dialect.toList_constant]
  simp only [List.mem_append, not_or] at hwords ⊢
  exact ⟨hwords.1.1, hname, hwords.1.2, hliteral, hwords.2⟩

/-- A texture read holds the characters of its names, of numbers, and of the fixed words. -/
theorem not_mem_fetch {dialect : Dialect} {x y : Float32} {stepX stepY weight : String} {c : Char}
    (hnames : c ∉ stepX.toList ∧ c ∉ stepY.toList ∧ c ∉ weight.toList) (hdigit : c.isDigit = false)
    (hmark : c ∉ Decimal.marks) (hstart : c ∉ dialect.fetchStart) (hwords : c ∉ " *,)".toList) :
    c ∉ (dialect.fetch x y stepX stepY weight).toList := by
  have hoffset : ∀ z, c ∉ (Decimal.fixed Dialect.offsetPlaces z).toList := fun z =>
    Decimal.not_mem_fixed hdigit hmark
  have hinner : ∀ words : List Char, words ⊆ " *,)".toList → c ∉ words := fun words hsub hc =>
    hwords (hsub hc)
  rw [Dialect.toList_fetch]
  simp only [List.mem_append, not_or]
  exact ⟨hstart, hoffset x, hinner _ (by decide), hnames.1, hinner _ (by decide), hoffset y,
    hinner _ (by decide), hnames.2.1, hinner _ (by decide), hnames.2.2⟩

end Shader

end Stencil
