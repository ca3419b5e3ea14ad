import Stencil.Kernel.Geometry
import Stencil.Shader.Stock

/-! # Shader programs

The code generated for a kernel, before it is placed in a template: one constant per weight, and
one statement that adds up a texture read per weight.  The constants are numbered in row-major
order.
-/

namespace Stencil

/-- The distance in texture coordinates between neighbouring pixels. -/
structure TexelSteps where
  x : Float32
  y : Float32
deriving DecidableEq

namespace TexelSteps

/-- The step over one of `count` pixels; no pixels count as one. -/
def step (count : Nat) : Float32 := Precision.ofInt 1 / Precision.ofNat (max count 1)

/-- The steps of a texture of the given size. -/
def ofResolution (width height : Nat) : TexelSteps := ⟨step width, step height⟩

/-- The width that is assumed of a texture. -/
def standardWidth : Nat := 800

/-- The height that is assumed of a texture. -/
def standardHeight : Nat := 600

/-- The steps of a texture of the assumed size. -/
def standard : TexelSteps := ofResolution standardWidth standardHeight

end TexelSteps

namespace Shader

/-- What the generated code depends on besides the kernel. -/
structure Config where
  steps : TexelSteps
  dialect : Dialect
  placeholder : String
  outputVariable : String
deriving DecidableEq

/-- The configuration for a dialect, everything else as assumed. -/
def Config.forDialect (dialect : Dialect) : Config :=
  ⟨TexelSteps.standard, dialect, Template.standardPlaceholder, "result"⟩

/-- The configuration when nothing is asked for. -/
def Config.standard : Config := .forDialect .standard

/-- The name of the horizontal step. -/
def stepXName : String := "TextureStepX"

/-- The name of the vertical step. -/
def stepYName : String := "TextureStepY"

/-- What the names of the weights start with. -/
def weightNameStart : String := "Filter"

/-- The name of the weight with an index. -/
def weightName (index : Nat) : String :=
  weightNameStart ++ String.ofList (Nat.toDigits 10 index)

/-- The declarations and terms for a kernel, in row-major order. -/
structure Program where
  declarations : List String
  terms : List String
  outputVariable : String
deriving DecidableEq, Repr

namespace Program

/-- Declares the weight of a tap. -/
def declaration (dialect : Dialect) (tap : Kernel.Tap) : String :=
  dialect.constant (weightName tap.index) tap.weight

/-- Reads the texture at the offset of a tap. -/
def term (dialect : Dialect) (tap : Kernel.Tap) : String :=
  dialect.fetch tap.offset.x tap.offset.y stepXName stepYName (weightName tap.index)

/-- The program for a kernel. -/
def ofKernel (k : Kernel) (config : Config) : Except (Failure Error) Program := do
  if !k.isConsistent then
    throw (.refused (.sizeMismatch k.width k.height k.weights.length))
  if k.weights.isEmpty then
    throw (.refused .emptyKernel)
  let taps ← Failure.ofFaulty k.taps
  return ⟨taps.map (declaration config.dialect), taps.map (term config.dialect),
    config.outputVariable⟩

/-- The statement that assigns the weighted sum, one term per line. -/
def statement (p : Program) : String :=
  p.outputVariable ++ " = " ++ " +\n".intercalate p.terms ++ ";\n"

/-- The declarations, one per line. -/
def declarationBlock (p : Program) : String := "\n".intercalate p.declarations ++ "\n"

end Program

/-- Generates a shader: the steps and weights are declared at the cursor of the template, and the
placeholder becomes the statement. -/
def generate (k : Kernel) (template : Template) (config : Config) :
    Except (Failure Error) String := do
  if template.dialect ≠ config.dialect then
    throw (.refused (.dialectMismatch template.dialect config.dialect))
  let program ← Program.ofKernel k config
  let withX ← Failure.ofFaulty (template.declare stepXName config.steps.x)
  let withSteps ← Failure.ofFaulty (withX.declare stepYName config.steps.y)
  let declared ← Failure.ofFaulty (withSteps.insert program.declarationBlock)
  let complete ← declared.substitute config.placeholder program.statement
  return complete.text

end Shader

end Stencil
