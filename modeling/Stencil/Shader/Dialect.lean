import Stencil.Decimal.Fixed
import Stencil.Text.Blank

/-! # Shading dialects

The two shading languages in which code is written.  A dialect decides how a constant is declared
and how a texture is read at an offset.  Weights and steps have six decimal places, offsets one.
-/

namespace Stencil

/-- A shading language. -/
inductive Dialect where
  | glsl
  | wgsl
deriving DecidableEq, Repr

namespace Dialect

/-- All dialects. -/
def all : List Dialect := [.glsl, .wgsl]

/-- The dialect that is used when none is asked for. -/
def standard : Dialect := .glsl

/-- The name of a dialect. -/
def name : Dialect → String
  | .glsl => "glsl"
  | .wgsl => "wgsl"

/-- The dialect with exactly this name. -/
def ofExactName? (s : String) : Option Dialect := all.find? fun dialect => dialect.name == s

/-- The dialect with a name or another usual name, blanks around it and case apart; otherwise the
name as it was looked up. -/
def ofName (s : String) : Except String Dialect :=
  match String.ofList (Text.lower (Text.trim s.toList)) with
  | "glsl" | "gles" | "frag" => .ok .glsl
  | "wgsl" => .ok .wgsl
  | other => .error other

/-- The wording for a name that no dialect has. -/
def unknownMessage (name : String) : String :=
  s!"unknown shading language: {name} (expected glsl or wgsl)"

/-- The decimal places of constants. -/
def constantPlaces : Nat := 6

/-- The decimal places of offsets. -/
def offsetPlaces : Nat := 1

/-- Declares a constant at module scope. -/
def constant (dialect : Dialect) (name : String) (value : Float32) : String :=
  let literal := Decimal.fixed constantPlaces value
  match dialect with
  | .glsl => s!"const float {name} = {literal};"
  | .wgsl => s!"const {name}: f32 = {literal};"

/-- Reads the texture `x` and `y` steps away and scales what it reads. -/
def fetch (dialect : Dialect) (x y : Float32) (stepX stepY weight : String) : String :=
  let dx := Decimal.fixed offsetPlaces x
  let dy := Decimal.fixed offsetPlaces y
  match dialect with
  | .glsl =>
    s!"texture2D(Texture0, TextureCoord + vec2({dx} * {stepX}, {dy} * {stepY})) * {weight}"
  | .wgsl =>
    s!"textureSample(texture0, sampler0, tex_coord + vec2<f32>({dx} * {stepX}, {dy} * {stepY})) * {weight}"

/-- Every dialect is found by its own name. -/
theorem ofName_name (dialect : Dialect) : ofName dialect.name = .ok dialect := by
  cases dialect <;> rfl

theorem ofExactName?_name (dialect : Dialect) : ofExactName? dialect.name = some dialect := by
  cases dialect <;> decide

end Dialect

end Stencil
