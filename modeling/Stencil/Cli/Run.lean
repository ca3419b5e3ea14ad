import Stencil.Cli.Arguments
import Stencil.Cli.Listing
import Stencil.Scene
import Stencil.System

/-! # Running a command

A run reads the settings and the template, and then either prints or writes the output.  It does so on
a system that is a parameter, step by step: what is printed before a step that fails stays printed.
A run that fails reports the stage that failed.

Two things are up to libraries, and are parameters as well: how the arguments are read, and how the
errors of documents are worded.
-/

namespace Stencil.Cli

/-- The stage that failed, with what it worked on. -/
inductive Trouble where
  | config (path : String) (cause : Settings.Error)
  | scene (descriptor : String) (cause : Settings.Error)
  | preset (name : String)
  | normalize (cause : Settings.Error)
  | template (cause : Shader.Error)
  | generation (cause : Settings.Error)
  | matrix (text : String) (cause : Kernel.Error)
  | output (path : String) (cause : FileError)
  | fault (reason : Fault)
deriving DecidableEq, Repr

namespace Trouble

/-- The names that a stock kernel can be asked for by. -/
def presetNames : String := ", ".intercalate (Kernel.Stock.all.map Kernel.Stock.name)

/-- What is reported, from the outermost message to the innermost cause. -/
def messages (yaml : Yaml.Error → String) : Trouble → List String
  | .config path cause => s!"Failed to load options: {path}" :: cause.messages yaml
  | .scene descriptor cause => s!"Invalid scene descriptor: {descriptor}" :: cause.messages yaml
  | .preset name => [s!"Unknown preset '{name}' (available: {presetNames})"]
  | .normalize cause => cause.messages yaml
  | .template cause => (Settings.Error.shader cause).messages yaml
  | .generation cause => "Failed to generate convolution shader" :: cause.messages yaml
  | .matrix text cause => [s!"Invalid matrix: {text}", cause.message]
  | .output path cause => [s!"Failed to write: {path}", cause.message]
  | .fault reason => [reason.message?.getD "arithmetic or position fault"]

/-- A cause behind its mark; its further lines are indented as far. -/
def causeLines (mark indent : String) (message : String) : String :=
  mark ++ ("\n" ++ indent).intercalate
    ((Text.split '\n' message.toList).map String.ofList)

/-- Causes with their numbers. -/
def numbered (first : Nat) : List String → List String
  | [] => []
  | message :: rest =>
    causeLines (Text.alignRight 5 (natText first) ++ ": ") "       " message
      :: numbered (first + 1) rest

/-- The causes of an error; a single one has no number. -/
def causeList : List String → List String
  | [message] => [causeLines "    " "    " message]
  | messages => numbered 0 messages

/-- The text of a report. -/
def report (yaml : Yaml.Error → String) (t : Trouble) : String :=
  match t.messages yaml with
  | [] => "Error: \n"
  | [message] => s!"Error: {message}\n"
  | message :: causes =>
    s!"Error: {message}\n\nCaused by:\n" ++ "\n".intercalate (causeList causes) ++ "\n"

/-- The exit code of a run that failed. -/
def exitCode : Trouble → Nat
  | .fault _ => 101
  | _ => 1

end Trouble

section

variable {m : Type → Type} [Monad m]

/-- The settings to start from: those of the file, if one is given. -/
def loadSettings (files : FileAccess m) (config? : Option String) :
    ExceptT Trouble m Settings :=
  match config? with
  | none => return .standard
  | some path => do
    match ← (Settings.ofFile files path : m _) with
    | .ok s => return s
    | .error cause => throw (.config path cause)

/-- Applies the scene descriptor, if one is given. -/
def applyScene (scene? : Option String) (s : Settings) : Except Trouble Settings :=
  match scene? with
  | none => .ok s
  | some descriptor =>
    match Scene.apply descriptor s with
    | (changed, none) => .ok changed
    | (_, some cause) => .error (.scene descriptor cause)

/-- Takes the matrix of a stock kernel, if one is given. -/
def applyPreset (preset? : Option String) (s : Settings) : Except Trouble Settings :=
  match preset? with
  | none => .ok s
  | some name =>
    match Kernel.Stock.ofName? name with
    | none => .error (.preset name)
    | some stock =>
      match stock.kernel with
      | .ok k => .ok { s with matrix := k.text }
      | .error reason => .error (.fault reason)

/-- Takes the matrix, if one is given. -/
def applyMatrix (matrix? : Option String) (s : Settings) : Settings :=
  match matrix? with
  | none => s
  | some matrix => { s with matrix }

/-- Sets the flag, if one is given. -/
def applyNormalize (normalize? : Option String) (s : Settings) : Except Trouble Settings :=
  match normalize? with
  | none => .ok s
  | some value => (s.set Settings.Key.normalize.name value).mapError .normalize

/-- Applies everything but the file to settings; later layers override earlier ones. -/
def applyLayers (a : KernelArguments) (s : Settings) : Except Trouble Settings := do
  let s ← applyScene a.scene? s
  let s ← applyPreset a.preset? s
  applyNormalize a.normalize? (applyMatrix a.matrix? s)

/-- The settings that the arguments lead to. -/
def resolve (files : FileAccess m) (a : KernelArguments) : ExceptT Trouble m Settings := do
  let s ← loadSettings files a.config?
  ExceptT.mk (pure (applyLayers a s))

/-- The template: that of the file, if one is given, or the stock one. -/
def loadTemplate (files : FileAccess m) (path? : Option String) (dialect : Dialect) :
    ExceptT Trouble m Template :=
  match path? with
  | none => return .stock dialect
  | some path => do
    match ← (Template.ofFile files path dialect : m _) with
    | .ok t => return t
    | .error cause => throw (.template cause)

/-- How the code is generated. -/
def GenerateArguments.config (a : GenerateArguments) : Shader.Config :=
  { Shader.Config.forDialect a.dialect with
    steps := .ofResolution a.textureWidth a.textureHeight
    placeholder := a.placeholder }

/-- The shader for settings, as a stage of a run. -/
def generation (s : Settings) (template : Template) (config : Shader.Config) :
    Except Trouble String :=
  match s.shader template config with
  | .ok text => .ok text
  | .error (.refused cause) => .error (.generation cause)
  | .error (.fault reason) => .error (.fault reason)

/-- The shader that is asked for.  Files are only read for it. -/
def makeShader (files : FileAccess m) (a : GenerateArguments) : ExceptT Trouble m String := do
  let s ← resolve files a.kernel
  let template ← loadTemplate files a.template? a.dialect
  ExceptT.mk (pure (generation s template a.config))

/-- Writes the text to a file if one is given, and prints it otherwise. -/
def deliver (system : System m) (output? : Option String) (text : String) : ExceptT Trouble m Unit :=
  match output? with
  | none => system.print text
  | some path => do
    match ← (system.write path text : m _) with
    | .ok () => return ()
    | .error cause => throw (.output path cause)

/-- Generates a shader. -/
def generate (system : System m) (a : GenerateArguments) : ExceptT Trouble m Unit := do
  let text ← makeShader system.toFileAccess a
  deliver system a.output? text

/-- Prints pieces one after the other, up to the first that is abandoned. -/
def printAll (console : Console m) : List (Except Fault String) → ExceptT Trouble m Unit
  | [] => return ()
  | .ok piece :: rest => do
    console.print piece
    printAll console rest
  | .error reason :: _ => throw (.fault reason)

/-- Shows the kernel of settings. -/
def showKernel (console : Console m) (s : Settings) (verbose : Bool) : ExceptT Trouble m Unit :=
  match Kernel.parse s.matrix with
  | .error cause => throw (.matrix s.matrix cause)
  | .ok raw => printAll console (kernelPieces raw s.normalize verbose)

/-- Shows a kernel. -/
def inspect (system : System m) (a : KernelArguments) (verbose : Bool) :
    ExceptT Trouble m Unit := do
  let s ← resolve system.toFileAccess a
  showKernel system.toConsole s verbose

/-- Runs a command. -/
def execute (system : System m) (i : Invocation) : ExceptT Trouble m Unit :=
  match i.command with
  | .generate a => generate system a
  | .inspect a => inspect system a i.verbose
  | .presets => printAll system.toConsole (stockLines i.verbose)
  | .options => system.print (settingListing .standard)

end

/-- All that is printed when the kernel of settings is shown. -/
def inspection (s : Settings) (verbose : Bool) : Except Trouble String :=
  let (result, printed) := StateT.run (ExceptT.run (showKernel .transcript s verbose)) ""
  result.map fun _ => printed

/-- How a run ends: its exit code, and what it says to the standard error. -/
structure Status where
  exitCode : Nat
  errors : String
deriving DecidableEq, Repr

/-- How a command ends. -/
def Status.ofResult (yaml : Yaml.Error → String) : Except Trouble Unit → Status
  | .ok () => ⟨0, ""⟩
  | .error trouble => ⟨trouble.exitCode, trouble.report yaml⟩

/-- How a run ended, and all that it printed. -/
structure Report extends Status where
  output : String
deriving DecidableEq, Repr

/-- What is up to libraries: how arguments are read, and how the errors of documents are worded.
Arguments that do not lead to a command that runs have an answer of their own. -/
structure Libraries where
  readArguments : List String → Except Report Invocation
  yaml : Yaml.Error → String

/-- The program. -/
def program {m : Type → Type} [Monad m] (libraries : Libraries) (system : System m)
    (arguments : List String) : m Status :=
  match libraries.readArguments arguments with
  | .error answer => do
    system.print answer.output
    return answer.toStatus
  | .ok invocation => do
    return .ofResult libraries.yaml (← (execute system invocation).run)

/-! ## Running the program -/

/-- The name and version of the program. -/
def versionLine : String := line "convfx 0.1.0"

/-- How the program is called. -/
def usageText : String :=
  line "Generate 2D convolution fragment shaders" ++ line ""
    ++ line "Usage: convfx [-v] generate | inspect | presets | options [OPTIONS]"

/-- The answer to arguments that do not lead to a command that runs. -/
def Stop.answer : Stop → Report
  | .usage => ⟨⟨2, usageText⟩, ""⟩
  | .help => ⟨⟨0, ""⟩, usageText⟩
  | .version => ⟨⟨0, ""⟩, versionLine⟩

/-- Arguments as they are read here, and errors of documents without details. -/
def Libraries.standard : Libraries where
  readArguments arguments := (Invocation.ofArguments arguments).mapError Stop.answer
  yaml _ := "invalid document"

/-- Runs the program on files, and collects what it prints. -/
def run {σ : Type} (files : FileAccess (StateM σ)) (arguments : List String) : StateM σ Report :=
  fun s =>
    let (status, after) := StateT.run (program .standard files.session arguments) ⟨s, ""⟩
    (⟨status, after.printed⟩, after.files)

end Stencil.Cli
