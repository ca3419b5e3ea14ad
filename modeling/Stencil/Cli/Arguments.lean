import Stencil.Settings

/-! # Command line arguments

The arguments of the program: switches, a command, and the options of the command.  An option takes
one value, which is attached to it (`-mV`, `-m=V`, `--matrix=V`) or the next argument; a next
argument that looks like an option is no value.  No option is given twice, and `--` ends the
options.  The first argument that breaks a rule or asks for help decides.
-/

namespace Stencil.Cli

/-- The options that take a value. -/
inductive Field where
  | matrix
  | preset
  | normalize
  | config
  | scene
  | output
  | lang
  | template
  | placeholder
  | textureWidth
  | textureHeight
deriving DecidableEq, Repr

namespace Field

/-- The long name of an option. -/
def long : Field → String
  | .matrix => "matrix"
  | .preset => "preset"
  | .normalize => "normalize"
  | .config => "config"
  | .scene => "scene"
  | .output => "output"
  | .lang => "lang"
  | .template => "template"
  | .placeholder => "placeholder"
  | .textureWidth => "texture-width"
  | .textureHeight => "texture-height"

/-- The letter of an option, if it has one. -/
def short? : Field → Option Char
  | .matrix => some 'm'
  | .preset => some 'p'
  | .normalize => some 'n'
  | .config => some 'c'
  | .scene => some 's'
  | .output => some 'o'
  | .lang => some 'l'
  | .template => some 't'
  | .placeholder | .textureWidth | .textureHeight => none

/-- The options that choose the kernel. -/
def ofKernel : List Field := [.matrix, .preset, .normalize, .config, .scene]

/-- The options of the command that generates shaders. -/
def ofGenerate : List Field :=
  ofKernel ++ [.output, .lang, .template, .placeholder, .textureWidth, .textureHeight]

end Field

/-- The number of pixels that a text gives: below `2 ^ 32`, with an optional sign. -/
def pixelCount? (s : String) : Option Nat :=
  let ofDigits (cs : List Char) : Option Nat :=
    if cs.isEmpty || !cs.all Char.isDigit then none else some (Nat.ofDigitChars 10 cs 0)
  let count? := match s.toList with
    | '+' :: cs => ofDigits cs
    | '-' :: cs => (ofDigits cs).filter (· = 0)
    | cs => ofDigits cs
  count?.filter (· < 0x100000000)

/-- Whether a text is a value of an option: a path is not empty, a dialect has a name, and a
number of pixels is one. -/
def Field.accepts (field : Field) (value : String) : Bool :=
  match field with
  | .config | .output | .template => value != ""
  | .lang => (Dialect.ofName value).toOption.isSome
  | .textureWidth | .textureHeight => (pixelCount? value).isSome
  | _ => true

/-- Why the arguments do not lead to a command that runs. -/
inductive Stop where
  | usage
  | help
  | version
deriving DecidableEq, Repr

/-- What the arguments at one level gave so far. -/
structure Found where
  verbose : Bool
  values : List (Field × String)
deriving DecidableEq, Repr

namespace Found

/-- Nothing was given. -/
def nothing : Found := ⟨false, []⟩

/-- The value of an option. -/
def value? (found : Found) (field : Field) : Option String := found.values.lookup field

/-- Adds the value of an option. -/
def add (found : Found) (field : Field) (value : String) : Except Stop Found :=
  if (found.value? field).isSome || !field.accepts value then .error .usage
  else .ok { found with values := found.values ++ [(field, value)] }

/-- Switches to verbose output. -/
def setVerbose (found : Found) : Except Stop Found :=
  if found.verbose then .error .usage else .ok { found with verbose := true }

end Found

/-- What can be given at one level: its options, and whether the version can be asked for. -/
structure Level where
  fields : List Field
  hasVersion : Bool

/-- How an argument looks. -/
inductive Shape where
  | escape
  | long (name : String) (value? : Option String)
  | short (letters : List Char)
  | plain
deriving DecidableEq, Repr

/-- Tells how an argument looks; a single dash is plain. -/
def Shape.ofArgument (argument : String) : Shape :=
  match argument.toList with
  | ['-', '-'] => .escape
  | '-' :: '-' :: cs =>
    match Text.splitFirst? '=' cs with
    | some (name, value) => .long (String.ofList name) (some (String.ofList value))
    | none => .long (String.ofList cs) none
  | '-' :: c :: cs => .short (c :: cs)
  | _ => .plain

/-- Reads the letters behind a dash.  The last one may be an option whose value is still to
come. -/
def readLetters (level : Level) (found : Found) : List Char → Except Stop (Found × Option Field)
  | [] => .ok (found, none)
  | c :: cs =>
    if c = 'v' then do
      let found ← found.setVerbose
      readLetters level found cs
    else if c = 'h' then .error .help
    else if c = 'V' ∧ level.hasVersion then .error .version
    else match level.fields.find? fun field => field.short? == some c, cs with
      | some field, [] => .ok (found, some field)
      | some field, '=' :: value => do
        let found ← found.add field (String.ofList value)
        return (found, none)
      | some field, value => do
        let found ← found.add field (String.ofList value)
        return (found, none)
      | none, _ => .error .usage

/-- Reads a long argument; an option without value has its value still to come. -/
def readLong (level : Level) (found : Found) (name : String) (value? : Option String) :
    Except Stop (Found × Option Field) :=
  match level.fields.find? fun field => field.long == name, value? with
  | some field, some value => do
    let found ← found.add field value
    return (found, none)
  | some field, none => .ok (found, some field)
  | none, some _ => .error .usage
  | none, none =>
    if name = "verbose" then do
      let found ← found.setVerbose
      return (found, none)
    else if name = "help" then .error .help
    else if name = "version" ∧ level.hasVersion then .error .version
    else .error .usage

/-- Reads an argument that looks like an option. -/
def readOption (level : Level) (found : Found) (shape : Shape) :
    Except Stop (Found × Option Field) :=
  match shape with
  | .long name value? => readLong level found name value?
  | .short letters => readLetters level found letters
  | .escape | .plain => .error .usage

/-- Reads the arguments of a command.  `pending?` is an option that waits for its value. -/
def readOptions (level : Level) (found : Found) (pending? : Option Field) :
    List String → Except Stop Found
  | [] => if pending?.isSome then .error .usage else .ok found
  | argument :: rest =>
    match Shape.ofArgument argument, pending? with
    | .plain, some field => do
      let found ← found.add field argument
      readOptions level found none rest
    | .plain, none => .error .usage
    | _, some _ => .error .usage
    | .escape, none => if rest.isEmpty then .ok found else .error .usage
    | shape, none => do
      let (found, pending?) ← readOption level found shape
      readOptions level found pending? rest

/-- The choice of a kernel on the command line. -/
structure KernelArguments where
  matrix? : Option String
  preset? : Option String
  normalize? : Option String
  config? : Option String
  scene? : Option String
deriving DecidableEq, Repr

/-- The arguments of the command that generates a shader. -/
structure GenerateArguments where
  kernel : KernelArguments
  output? : Option String
  dialect : Dialect
  template? : Option String
  placeholder : String
  textureWidth : Nat
  textureHeight : Nat
deriving DecidableEq, Repr

/-- What the program is asked to do. -/
inductive Command where
  | generate (arguments : GenerateArguments)
  | inspect (arguments : KernelArguments)
  | presets
  | options
deriving DecidableEq, Repr

/-- A command with how much it is to say. -/
structure Invocation where
  command : Command
  verbose : Bool
deriving DecidableEq, Repr

/-- The arguments that choose a kernel.  A matrix and a stock kernel exclude each other. -/
def KernelArguments.ofFound (found : Found) : Except Stop KernelArguments :=
  let matrix? := found.value? .matrix
  let preset? := found.value? .preset
  if matrix?.isSome && preset?.isSome then .error .usage
  else .ok ⟨matrix?, preset?, found.value? .normalize, found.value? .config, found.value? .scene⟩

/-- The arguments that generate a shader; what is not given is as usual. -/
def GenerateArguments.ofFound (found : Found) : Except Stop GenerateArguments := do
  let kernel ← KernelArguments.ofFound found
  let dialect := ((found.value? .lang).bind fun name => (Dialect.ofName name).toOption).getD
    .standard
  let size (field : Field) (standard : Nat) : Nat :=
    ((found.value? field).bind pixelCount?).getD standard
  return {
    kernel
    output? := found.value? .output
    dialect
    template? := found.value? .template
    placeholder := (found.value? .placeholder).getD Template.standardPlaceholder
    textureWidth := size .textureWidth TexelSteps.standardWidth
    textureHeight := size .textureHeight TexelSteps.standardHeight }

/-- The names of commands. -/
inductive CommandName where
  | generate
  | inspect
  | presets
  | options
deriving DecidableEq, Repr

/-- The command with a name. -/
def CommandName.ofText? : String → Option CommandName
  | "generate" | "g" => some .generate
  | "inspect" | "i" => some .inspect
  | "presets" => some .presets
  | "options" => some .options
  | _ => none

/-- Reads the arguments behind the name of a command. -/
def readCommand (name : CommandName) (verbose : Bool) (arguments : List String) :
    Except Stop Invocation := do
  let fields := match name with
    | .generate => Field.ofGenerate
    | .inspect => Field.ofKernel
    | .presets | .options => []
  let found ← readOptions ⟨fields, false⟩ .nothing none arguments
  let command ← match name with
    | .generate => (GenerateArguments.ofFound found).map Command.generate
    | .inspect => (KernelArguments.ofFound found).map Command.inspect
    | .presets => .ok .presets
    | .options => .ok .options
  return ⟨command, verbose || found.verbose⟩

/-- What the names behind `help` lead to: each has to be the name of a command. -/
def helpOn (names : List String) : Stop :=
  match names with
  | [] => .help
  | [name] => if (CommandName.ofText? name).isSome || name == "help" then .help else .usage
  | _ => .usage

/-- Reads all arguments, given the switches before the command. -/
def readFrom (found : Found) : List String → Except Stop Invocation
  | [] => .error .usage
  | argument :: rest =>
    if argument = "help" then .error (helpOn rest)
    else match CommandName.ofText? argument with
      | some name => readCommand name found.verbose rest
      | none => do
        let (found, _) ← readOption ⟨[], true⟩ found (Shape.ofArgument argument)
        readFrom found rest

/-- Reads all arguments of the program. -/
def Invocation.ofArguments (arguments : List String) : Except Stop Invocation :=
  readFrom .nothing arguments

end Stencil.Cli
