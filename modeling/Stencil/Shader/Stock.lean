import Stencil.Shader.Template

/-! # Stock templates

One complete template for each dialect.  It declares the vector `result`, and the token
`$CONVOLUTION$` stands where the statement that assigns it belongs.
-/

namespace Stencil.Template

/-- The token that a template holds unless it is told otherwise. -/
def standardPlaceholder : String := "$CONVOLUTION$"

/-- A text of lines, each ended by a line feed. -/
def joinLines (lines : List String) : String :=
  String.ofList (lines.flatMap fun line => line.toList ++ ['\n'])

/-- A fragment shader that reads `Texture0` at the coordinate from the vertex stage. -/
def glslText : String :=
  joinLines [
    "#ifdef GL_ES",
    "precision mediump float;",
    "#endif",
    "",
    "uniform sampler2D Texture0;",
    "varying vec2 TextureCoord;",
    "",
    "void main(void)",
    "\x7b",
    "    vec4 result;",
    "",
    "    $CONVOLUTION$",
    "",
    "    gl_FragColor = vec4(result.xyz, 1.0);",
    "\x7d"]

/-- A module that covers the screen with one triangle and reads `texture0`. -/
def wgslText : String :=
  joinLines [
    "@group(0) @binding(0) var texture0: texture_2d<f32>;",
    "@group(0) @binding(1) var sampler0: sampler;",
    "",
    "struct VertexOutput \x7b",
    "    @builtin(position) position: vec4<f32>,",
    "    @location(0) tex_coord: vec2<f32>,",
    "\x7d;",
    "",
    "@vertex",
    "fn vs_main(@builtin(vertex_index) index: u32) -> VertexOutput \x7b",
    "    let uv = vec2<f32>(f32((index << 1u) & 2u), f32(index & 2u));",
    "    var out: VertexOutput;",
    "    out.position = vec4<f32>(uv * 2.0 - 1.0, 0.0, 1.0);",
    "    out.tex_coord = uv;",
    "    return out;",
    "\x7d",
    "",
    "@fragment",
    "fn fs_main(in: VertexOutput) -> @location(0) vec4<f32> \x7b",
    "    let tex_coord = in.tex_coord;",
    "    var result: vec4<f32>;",
    "",
    "    $CONVOLUTION$",
    "",
    "    return vec4<f32>(result.xyz, 1.0);",
    "\x7d"]

/-- The text of the stock template. -/
def stockText : Dialect → String
  | .glsl => glslText
  | .wgsl => wgslText

/-- The stock template of a dialect. -/
def stock (dialect : Dialect) : Template := ofText (stockText dialect) dialect

end Stencil.Template
