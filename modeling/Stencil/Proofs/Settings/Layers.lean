import Stencil.Proofs.Cli.Printing
import Stencil.Proofs.Kernel.Taps
import Stencil.Proofs.Settings.Scene

/-!
# Layers of settings

The settings of a run come in layers: the standard settings, the file, the scene, the stock kernel,
the matrix and the flag of the command line.  Every layer mentions some values, and what it mentions
takes the place of what the layers below it said.  So each value is that of the uppermost layer that
mentions it, whatever the layers do to the other one.

A layer can fail.  What is wrong with it does not depend on the layers below, so the trouble that is
reported is that of the first layer that fails, counted from below.

## Key results

- `ofYaml_eq`: a document gives what it mentions, and the standard values for the rest
- `applyLayers_eq`: the layers above the file, all at once
- `outcome_resolve`: the settings of a run, or its first trouble
- `resolve_eq_ok_iff`: the values of settings by precedence
-/

namespace Stencil

/-! ## Documents -/

namespace Settings

/-- The values that a document mentions. -/
structure Mentioned where
  matrix? : Option String
  normalize? : Option Bool

namespace Mentioned

/-- No value. -/
def nothing : Mentioned := ⟨none, none⟩

/-- Settings with the mentioned values in the place of their own. -/
def onto (mentioned : Mentioned) (s : Settings) : Settings :=
  ⟨mentioned.matrix?.getD s.matrix, mentioned.normalize?.getD s.normalize⟩

/-- The value of a field, if the record has it. -/
def field? {α : Type} (record : Yaml.Node.Fields) (key : Key)
    (read : Yaml.Node → Except Yaml.Error α) : Except Yaml.Error (Option α) := do
  match ← Yaml.Node.field? record key.name with
  | some node => return some (← read node)
  | none => return none

/-- The values that a YAML document mentions. -/
def ofYaml (text : String) : Except Yaml.Error Mentioned := do
  let record ← Yaml.Node.fields (← Yaml.document text)
  let matrix? ← field? record .matrix Yaml.Node.text
  let normalize? ← field? record .normalize Yaml.Node.flag
  return ⟨matrix?, normalize?⟩

/-- A field with a standard value is the field, if the record has it. -/
private theorem fieldOr_eq {α : Type} (record : Yaml.Node.Fields) (key : Key)
    (read : Yaml.Node → Except Yaml.Error α) (standard : α) :
    Yaml.Node.fieldOr record key.name read standard =
      (field? record key read).map fun value? => value?.getD standard := by
  unfold Yaml.Node.fieldOr field?
  cases Yaml.Node.field? record key.name with
  | error cause => rfl
  | ok node? =>
    cases node? with
    | none => rfl
    | some node =>
      simp only [ok_bind]
      cases read node <;> rfl

end Mentioned

/-- A document gives the values that it mentions, and the standard values for the rest. -/
theorem ofYaml_eq (text : String) :
    ofYaml text = (Mentioned.ofYaml text).map fun mentioned => mentioned.onto standard := by
  unfold ofYaml Mentioned.ofYaml
  simp only [Mentioned.fieldOr_eq]
  cases Yaml.document text with
  | error cause => rfl
  | ok document? =>
    simp only [ok_bind]
    cases Yaml.Node.fields document? with
    | error cause => rfl
    | ok record =>
      simp only [ok_bind]
      cases Mentioned.field? record .matrix Yaml.Node.text with
      | error cause => rfl
      | ok matrix? =>
        cases Mentioned.field? record .normalize Yaml.Node.flag with
        | error cause => rfl
        | ok normalize? => rfl

end Settings

/-! ## Stock kernels -/

namespace Kernel

/-- There is a kernel behind every name of one. -/
theorem Stock.exists_kernel (stock : Stock) : ∃ k, stock.kernel = .ok k := by
  cases stock with
  | identity => exact ⟨_, rfl⟩
  | box => exact ⟨_, rfl⟩
  | gaussian =>
    have hcount : squareCount (oddSide 5) = .ok 25 := rfl
    exact ⟨_, gaussian_eq_ok hcount _⟩
  | sharpen => exact ⟨_, rfl⟩
  | edge => exact ⟨_, rfl⟩
  | emboss => exact ⟨_, rfl⟩

end Kernel

namespace Cli

open Settings (Mentioned Key flagOfText?)
open Kernel (Stock)

/-! ## The layers -/

/-- What the file of settings mentions, if one is given; otherwise its trouble. -/
def fileLayer (read : String → Except FileError String) (config? : Option String) :
    Except Trouble Mentioned :=
  match config? with
  | none => .ok .nothing
  | some path =>
    match read path with
    | .error cause => .error (.config path (.file cause))
    | .ok text => (Mentioned.ofYaml text).mapError fun cause => .config path (.yaml cause)

/-- What is wrong with the file of settings. -/
def fileTrouble? (read : String → Except FileError String) (config? : Option String) :
    Option Trouble :=
  match fileLayer read config? with
  | .ok _ => none
  | .error t => some t

/-- What is wrong with the scene: its first piece that offends. -/
def sceneTrouble? (scene? : Option String) : Option Trouble :=
  scene?.bind fun descriptor =>
    (Scene.descriptorOffence? descriptor).map (Trouble.scene descriptor)

/-- What is wrong with the name of a stock kernel: no stock kernel has it. -/
def presetTrouble? (preset? : Option String) : Option Trouble :=
  preset?.bind fun name => if (Stock.ofName? name).isSome then none else some (.preset name)

/-- What is wrong with the flag: its text stands for none. -/
def flagTrouble? (normalize? : Option String) : Option Trouble :=
  normalize?.bind fun value =>
    if (flagOfText? value).isSome then none
    else some (.normalize (.invalidOption Key.normalize.name value))

/-- The first trouble of some stages. -/
def firstTrouble? (stages : List (Option Trouble)) : Option Trouble := stages.findSome? id

/-- The value of the last pair of the scene with the name of a setting. -/
def sceneValue? (scene? : Option String) (key : Key) : Option String :=
  scene?.bind fun descriptor => Scene.lastValue? key (Scene.pieces descriptor)

/-- The matrix of the stock kernel that is asked for. -/
def presetMatrix? (preset? : Option String) : Option String :=
  (preset?.bind Stock.ofName?).bind fun stock => stock.kernel.toOption.map Kernel.text

/-- The settings with, for each of the two, the uppermost value that is mentioned. -/
def settled (a : KernelArguments) (s : Settings) : Settings :=
  ⟨((a.matrix?.or (presetMatrix? a.preset?)).or (sceneValue? a.scene? .matrix)).getD s.matrix,
    ((a.normalize?.bind flagOfText?).or
      ((sceneValue? a.scene? .normalize).bind flagOfText?)).getD s.normalize⟩

/-- The scene gives the values of its last pairs. -/
private theorem applyScene_eq (scene? : Option String) (s : Settings) :
    applyScene scene? s =
      match sceneTrouble? scene? with
      | some t => .error t
      | none => .ok ⟨(sceneValue? scene? .matrix).getD s.matrix,
          ((sceneValue? scene? .normalize).bind flagOfText?).getD s.normalize⟩ := by
  cases scene? with
  | none => rfl
  | some descriptor =>
    unfold applyScene sceneTrouble? sceneValue?
    simp only [Scene.apply_eq, Option.bind_some]
    cases hoffence : Scene.descriptorOffence? descriptor with
    | some cause => rfl
    | none =>
      rw [Scene.accepted_of_firstOffence?_eq_none hoffence]
      rfl

/-- The stock kernel gives its matrix. -/
private theorem applyPreset_eq (preset? : Option String) (s : Settings) :
    applyPreset preset? s =
      match presetTrouble? preset? with
      | some t => .error t
      | none => .ok { s with matrix := (presetMatrix? preset?).getD s.matrix } := by
  cases preset? with
  | none => rfl
  | some name =>
    unfold applyPreset presetTrouble? presetMatrix?
    simp only [Option.bind_some]
    cases Stock.ofName? name with
    | none => rfl
    | some stock =>
      obtain ⟨k, hk⟩ := stock.exists_kernel
      simp [hk, Except.toOption]

/-- The flag of the command line is taken as it is. -/
private theorem applyNormalize_eq (normalize? : Option String) (s : Settings) :
    applyNormalize normalize? s =
      match flagTrouble? normalize? with
      | some t => .error t
      | none => .ok { s with normalize := (normalize?.bind flagOfText?).getD s.normalize } := by
  cases normalize? with
  | none => rfl
  | some value =>
    unfold applyNormalize flagTrouble? Settings.set
    rw [Key.ofName?_name]
    simp only [Option.bind_some]
    cases flagOfText? value <;> rfl

/-- The layers above the file give every value that the uppermost of them mentions, unless one of
    them fails. -/
theorem applyLayers_eq (a : KernelArguments) (s : Settings) :
    applyLayers a s =
      match firstTrouble? [sceneTrouble? a.scene?, presetTrouble? a.preset?,
          flagTrouble? a.normalize?] with
      | some t => .error t
      | none => .ok (settled a s) := by
  unfold applyLayers firstTrouble?
  rw [applyScene_eq]
  cases sceneTrouble? a.scene? with
  | some t => rfl
  | none =>
    simp only [ok_bind, applyPreset_eq]
    cases presetTrouble? a.preset? with
    | some t => rfl
    | none =>
      simp only [ok_bind, applyNormalize_eq]
      cases flagTrouble? a.normalize? with
      | some t => rfl
      | none =>
        unfold settled applyMatrix
        cases a.matrix? <;> cases presetMatrix? a.preset? <;>
          cases a.normalize?.bind flagOfText? <;> rfl

/-! ## The settings of a run -/

/-- The stages that lead to the settings, each with its trouble.  `read` is what reading a path
    gives. -/
def settingStages (read : String → Except FileError String) (a : KernelArguments) :
    List (Option Trouble) :=
  [fileTrouble? read a.config?, sceneTrouble? a.scene?, presetTrouble? a.preset?,
    flagTrouble? a.normalize?]

/-- The settings that a run is made with. -/
def chosen (read : String → Except FileError String) (a : KernelArguments) : Settings :=
  match fileLayer read a.config? with
  | .ok mentioned => settled a (mentioned.onto .standard)
  | .error _ => settled a .standard

variable {σ : Type} (files : FileAccess (StateM σ))

/-- The settings of a file are read off its text. -/
private theorem run_ofFile (s : σ) (path : String) :
    StateT.run (Settings.ofFile files path) s =
      (match files.answer s path with
      | .error cause => .error (.file cause)
      | .ok text => (Settings.ofYaml text).mapError .yaml, files.afterReading s (some path)) := by
  have hread : StateT.run (files.read path) s =
      (files.answer s path, files.afterReading s (some path)) := rfl
  unfold Settings.ofFile
  rw [StateT.run_bind, hread]
  cases files.answer s path <;> rfl

/-- The file is read, and gives what it mentions on top of the standard settings. -/
private theorem outcome_loadSettings (s : σ) (config? : Option String) :
    outcome (loadSettings files config?) s =
      ((fileLayer (files.answer s) config?).map fun mentioned => mentioned.onto .standard,
        files.afterReading s config?) := by
  cases config? with
  | none => rfl
  | some path =>
    unfold loadSettings fileLayer
    dsimp only
    rw [outcome_bind, outcome_monadLift, run_ofFile]
    dsimp only
    cases files.answer s path with
    | error cause => rfl
    | ok text =>
      dsimp only
      rw [Settings.ofYaml_eq]
      cases Mentioned.ofYaml text <;> rfl

/-- Settings are resolved by reading at most one file: to the chosen ones, or to the trouble of the
    first stage that fails. -/
theorem outcome_resolve (s : σ) (a : KernelArguments) :
    outcome (resolve files a) s =
      (match firstTrouble? (settingStages (files.answer s) a) with
      | some t => .error t
      | none => .ok (chosen (files.answer s) a), files.afterReading s a.config?) := by
  unfold resolve
  rw [outcome_bind, outcome_loadSettings]
  unfold settingStages fileTrouble? chosen firstTrouble?
  cases fileLayer (files.answer s) a.config? with
  | error t => rfl
  | ok mentioned =>
    show (applyLayers a (mentioned.onto .standard), files.afterReading s a.config?) = _
    rw [applyLayers_eq]
    rfl

/-- The settings of a run have, for each of the two, the value of the uppermost layer that mentions
    it: of the command line, the stock kernel (which has a matrix only), the scene, the file, and the
    standard settings.  There are settings exactly when no layer fails, and nothing is done for them
    but to read the file. -/
theorem resolve_eq_ok_iff (d : σ) (a : KernelArguments) (s : Settings) :
    outcome (resolve files a) d = (.ok s, files.afterReading d a.config?) ↔
      ∃ file, fileLayer (files.answer d) a.config? = .ok file ∧ sceneTrouble? a.scene? = none ∧
        presetTrouble? a.preset? = none ∧ flagTrouble? a.normalize? = none ∧
        s.matrix = (((a.matrix?.or (presetMatrix? a.preset?)).or (sceneValue? a.scene? .matrix)).or
          file.matrix?).getD Settings.standard.matrix ∧
        s.normalize = (((a.normalize?.bind flagOfText?).or
          ((sceneValue? a.scene? .normalize).bind flagOfText?)).or file.normalize?).getD true := by
  have hstandard : Settings.standard.normalize = true := rfl
  rw [outcome_resolve]
  unfold settingStages fileTrouble? chosen firstTrouble?
  cases fileLayer (files.answer d) a.config? with
  | error t => simp
  | ok file =>
    simp only [List.findSome?_cons, List.findSome?_nil, id_eq, Prod.mk.injEq, and_true,
      Except.ok.injEq, exists_eq_left']
    cases sceneTrouble? a.scene? with
    | some t => simp
    | none =>
      cases presetTrouble? a.preset? with
      | some t => simp
      | none =>
        cases flagTrouble? a.normalize? with
        | some t => simp
        | none =>
          simp only [Except.ok.injEq, true_and, Option.getD_or]
          constructor
          · rintro rfl
            simp [settled, Mentioned.onto, hstandard]
          · rintro ⟨hmatrix, hnormalize⟩
            simp [settled, Mentioned.onto, hstandard, ← hmatrix, ← hnormalize]

end Cli

end Stencil
