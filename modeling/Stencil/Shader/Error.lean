import Stencil.Files.Basic
import Stencil.Shader.Dialect
import Stencil.Text.Quoted

/-! # Errors of shader generation -/

namespace Stencil.Shader

/-- Why no shader can be generated. -/
inductive Error where
  /-- The weights do not fill the rectangle of the kernel. -/
  | sizeMismatch (width height count : Nat)
  /-- The kernel has no weight. -/
  | emptyKernel
  /-- The template is written in another dialect than the generated code. -/
  | dialectMismatch (template target : Dialect)
  /-- The token to replace does not stand in the text. -/
  | missingPlaceholder (token : String)
  /-- The file of the template cannot be read. -/
  | unreadableTemplate (path : String) (cause : FileError)
deriving DecidableEq, Repr

/-- The wording of an error. -/
def Error.message : Error → String
  | .sizeMismatch width height count =>
    s!"convolution filter size {count} doesn't match supplied dimensions {width}x{height}"
  | .emptyKernel => "convolution filter is empty"
  | .dialectMismatch template target =>
    s!"shader template is {template.name} but synthesis targets {target.name}"
  | .missingPlaceholder token => s!"shader template has no {Text.quoted token} placeholder"
  | .unreadableTemplate path cause =>
    s!"failed to read shader template {path}: {cause.message}"

end Stencil.Shader
