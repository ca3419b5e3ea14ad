import Stencil.Convolution
import Stencil.Files.Directory
import Stencil.Kernel.Ramp
import Stencil.Main
import Stencil.Proofs.Kernel.Grammar
import Stencil.Proofs.Text.Joined
import Stencil.Proofs.Text.Replacement
import Stencil.Proofs.Kernel.Taps
import Stencil.Proofs.Shader.Cursor
import Stencil.Proofs.Shader.Generation
import Stencil.Proofs.Pipeline
import Stencil.Proofs.Decimal.Written
import Stencil.Proofs.Shader.Phrases
import Stencil.Proofs.Shader.Layout
import Stencil.Proofs.Precision.Packing
import Stencil.Proofs.Precision.Rounding
import Stencil.Proofs.Precision.Whole
import Stencil.Proofs.Decimal.RoundTrip
import Stencil.Proofs.Precision.Value
import Stencil.Proofs.Shader.Reading
import Stencil.Proofs.Shader.Denotation
import Stencil.Proofs.Kernel.Notation
import Stencil.Proofs.Shader.Editing
import Stencil.Proofs.Shader.Validity
import Stencil.Proofs.Kernel.Loops
import Stencil.Proofs.Precision.Nearest
import Stencil.Proofs.Precision.Quotient
import Stencil.Proofs.Kernel.Finiteness
import Stencil.Proofs.Settings.Scene
import Stencil.Proofs.Settings.Layers
import Stencil.Proofs.Files.Directory
import Stencil.Proofs.Cli.Endings
import Stencil.Proofs.Cli.Stages
import Stencil.Proofs.Text.Words
import Stencil.Proofs.Cli.Listing
import Stencil.Proofs.Settings.Offences
import Stencil.Proofs.Kernel.Construction
import Stencil.Proofs.Precision.Closeness
import Stencil.Proofs.Precision.Reciprocal
import Stencil.Proofs.Shader.Sampling
import Stencil.Proofs.Yaml.Scanning
import Stencil.Proofs.Yaml.Record
import Stencil.Proofs.Settings.Forms
import Stencil.Proofs.Kernel.Answers
import Stencil.Proofs.Kernel.Rectangle
import Stencil.Proofs.Kernel.Defects
import Stencil.Proofs.Precision.Order
import Stencil.Proofs.Precision.Narrowing
import Stencil.Proofs.Precision.Sum
import Stencil.Proofs.Kernel.Divisor
import Stencil.Proofs.Kernel.Renormalization
import Stencil.Proofs.Shader.Placeholder
import Stencil.Proofs.Precision.Positive
import Stencil.Proofs.Kernel.Fallback
import Stencil.Proofs.Precision.Symmetry
import Stencil.Proofs.Kernel.Window
import Stencil.Proofs.Precision.Neutral
import Stencil.Proofs.Kernel.Translation
import Stencil.Proofs.Kernel.Displacement
import Stencil.Proofs.Kernel.Ramp
import Stencil.Proofs.Settings.Acceptance
import Stencil.Proofs.Precision.Monotone
import Stencil.Proofs.Kernel.Shape
import Stencil.Proofs.Shader.Preamble
import Stencil.Proofs.Shader.Movement
