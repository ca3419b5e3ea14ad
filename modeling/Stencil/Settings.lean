import Stencil.Kernel.Matrix
import Stencil.Kernel.Normalization
import Stencil.Shader.Program
import Stencil.Yaml.Writer

/-! # Settings

What a user chooses: the matrix, in matrix notation, and whether the kernel is normalized.  Settings
are made one by one from the texts of their values, or read from a YAML document; a setting that is
not mentioned keeps its value.

`shader` is the whole way from settings to shader text.  The first failure on it wins.
-/

namespace Stencil

/-- The choices that decide the kernel. -/
structure Settings where
  matrix : String
  normalize : Bool
deriving DecidableEq, Repr

namespace Settings

/-- What can go wrong from settings to shader text. -/
inductive Error where
  | kernel (cause : Kernel.Error)
  | shader (cause : Shader.Error)
  | unknownOption (key : String)
  | invalidOption (key value : String)
  | file (cause : FileError)
  | yaml (cause : Yaml.Error)
deriving DecidableEq, Repr

/-- The wording of an error.  Of a document it says only that there is an error: the library that
reads documents words what is wrong. -/
def Error.message : Error → String
  | .kernel cause => "invalid matrix: " ++ cause.message
  | .shader cause => cause.message
  | .unknownOption key => "unknown option: " ++ key
  | .invalidOption key value => s!"invalid value {Text.quoted value} for option {key}"
  | .file cause => "I/O error: " ++ cause.message
  | .yaml _ => "YAML parse error"

/-- What is reported of an error, from the error to its causes.  `yaml` is the wording of what is
wrong with a document. -/
def Error.messages (yaml : Yaml.Error → String) (e : Error) : List String :=
  match e with
  | .kernel cause => [e.message, cause.message]
  | .shader (.unreadableTemplate _ cause) => [e.message, cause.message]
  | .file cause => [e.message, cause.message]
  | .yaml cause => [e.message ++ ": " ++ yaml cause, yaml cause]
  | .shader _ | .unknownOption _ | .invalidOption _ _ => [e.message]

/-- The settings when nothing is chosen: the identity, normalized. -/
def standard : Settings := ⟨"0,0,0;0,1,0;0,0,0", true⟩

/-- The names of the settings. -/
inductive Key where
  | matrix
  | normalize
deriving DecidableEq, Repr

namespace Key

/-- All settings, in the order in which they are listed. -/
def all : List Key := [.matrix, .normalize]

/-- The name of a setting. -/
def name : Key → String
  | .matrix => "matrix"
  | .normalize => "normalize"

/-- What a setting is for. -/
def description : Key → String
  | .matrix => "The convolution matrix to use [format: \"a,b,c;d,e,f...\"]"
  | .normalize => "Whether to normalize the supplied convolution matrix [true,false]"

/-- The setting with a name, blanks around it apart. -/
def ofName? (s : String) : Option Key :=
  let name := Text.trim s.toList
  if name = "matrix".toList then some .matrix
  else if name = "normalize".toList then some .normalize
  else none

/-- Every setting is found by its own name. -/
theorem ofName?_name (key : Key) : ofName? key.name = some key := by
  cases key <;> decide

end Key

/-- The text of a flag. -/
def flagText : Bool → String
  | true => "true"
  | false => "false"

/-- The flag that a text stands for, blanks around it apart. -/
def flagOfText? (s : String) : Option Bool :=
  let word := Text.trim s.toList
  if word = "true".toList then some true
  else if word = "false".toList then some false
  else none

theorem flagOfText?_flagText (flag : Bool) : flagOfText? (flagText flag) = some flag := by
  cases flag <;> decide

/-- Changes a setting to the value that a text stands for. -/
def set (s : Settings) (key value : String) : Except Error Settings :=
  match Key.ofName? key with
  | some .matrix => .ok { s with matrix := value }
  | some .normalize =>
    match flagOfText? value with
    | some flag => .ok { s with normalize := flag }
    | none => .error (.invalidOption key value)
  | none => .error (.unknownOption (String.ofList (Text.trim key.toList)))

/-- The text of a setting's value. -/
def valueText (s : Settings) : Key → String
  | .matrix => s.matrix
  | .normalize => flagText s.normalize

/-- A setting keeps the value that its own text gives it. -/
theorem set_valueText (s : Settings) (key : Key) : s.set key.name (s.valueText key) = .ok s := by
  cases key with
  | matrix => rw [set, Key.ofName?_name]; rfl
  | normalize => rw [set, Key.ofName?_name]; simp only [valueText, flagOfText?_flagText]

/-- The text of the value of the setting with a name. -/
def get? (s : Settings) (key : String) : Option String := (Key.ofName? key).map s.valueText

/-- The settings that a YAML document gives. -/
def ofYaml (text : String) : Except Yaml.Error Settings := do
  let record ← Yaml.Node.fields (← Yaml.document text)
  let matrix ← Yaml.Node.fieldOr record Key.matrix.name Yaml.Node.text standard.matrix
  let normalize ← Yaml.Node.fieldOr record Key.normalize.name Yaml.Node.flag standard.normalize
  return ⟨matrix, normalize⟩

/-- The settings as a YAML document. -/
def toYaml (s : Settings) : String :=
  String.ofList (Key.matrix.name.toList ++ ": ".toList ++ Yaml.Writer.scalarLine s.matrix.toList)
    ++ Key.normalize.name ++ ": " ++ flagText s.normalize ++ "\n"

/-- The settings that a file gives. -/
def ofFile {m : Type → Type} [Monad m] (files : FileAccess m) (path : String) :
    m (Except Error Settings) := do
  match ← files.read path with
  | .error cause => return .error (.file cause)
  | .ok text => return (ofYaml text).mapError .yaml

/-- The kernel that the settings ask for. -/
def kernel (s : Settings) : Except Error Kernel :=
  match Kernel.parse s.matrix with
  | .ok k => .ok (if s.normalize then k.normalized else k)
  | .error cause => .error (.kernel cause)

/-- The shader that the settings ask for. -/
def shader (s : Settings) (template : Template) (config : Shader.Config) :
    Except (Failure Error) String :=
  match s.kernel with
  | .ok k => Failure.mapRefused .shader (Shader.generate k template config)
  | .error e => .error (.refused e)

end Settings

/-- The template that a file holds. -/
def Template.ofFile {m : Type → Type} [Monad m] (files : FileAccess m) (path : String)
    (dialect : Dialect) : m (Except Shader.Error Template) := do
  match ← files.read path with
  | .error cause => return .error (.unreadableTemplate path cause)
  | .ok text => return .ok (ofText text dialect)

/-- The dialect that a YAML document names. -/
def Dialect.ofYaml (text : String) : Except Yaml.Error Dialect := do
  match ← Yaml.document text with
  | none => throw .expectedName
  | some d =>
    let name ← d.root.chosenName
    match ofExactName? name with
    | some dialect => return dialect
    | none => throw (.unknownName name)

/-- The steps that a YAML document gives. -/
def TexelSteps.ofYaml (text : String) : Except Yaml.Error TexelSteps := do
  let record ← Yaml.Node.fields (← Yaml.document text)
  let x ← Yaml.Node.requiredField record "x" Yaml.Node.number
  let y ← Yaml.Node.requiredField record "y" Yaml.Node.number
  return ⟨x, y⟩

end Stencil
