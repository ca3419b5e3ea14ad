import Stencil.Proofs.Yaml.Record
import Stencil.Scene

/-!
# The forms of settings

Settings are given as a descriptor, as a YAML document, or one by one.  A matrix that a descriptor
can hold, and that needs no escapes in double quotes, is the same matrix in all three forms: no
reader takes a character off it, and none looks for anything in it.

## Key results

- `Scene.parse_pairs`: a descriptor of two pairs sets one after the other
- `Settings.ofYaml_lines`: the two lines of a document give the two settings
- `Settings.forms_agree`: the three forms, in either order
-/

namespace Stencil

open Text

/-- A text with no blank at either end is left as it is. -/
theorem Text.trim_of_ends {cs : List Char} (hfirst : ∀ c ∈ cs.head?, isBlank c = false)
    (hlast : ∀ c ∈ cs.getLast?, isBlank c = false) : trim cs = cs := by
  have hkept : ∀ ds : List Char, (∀ c ∈ ds.head?, isBlank c = false) → ds.dropWhile isBlank = ds := by
    intro ds hds
    cases ds with
    | nil => rfl
    | cons d ds => rw [List.dropWhile_cons, hds d rfl, if_neg Bool.false_ne_true]
  rw [trim, hkept cs hfirst, trimEnd, hkept cs.reverse, List.reverse_reverse]
  rw [List.head?_reverse]
  exact hlast

namespace Settings

/-- The matrix is set to any text. -/
theorem set_matrix (s : Settings) (matrix : String) :
    s.set "matrix" matrix = .ok { s with matrix } := by
  rw [set, show Key.ofName? "matrix" = some .matrix from Key.ofName?_name .matrix]

/-- The flag is set to the flag of its text. -/
theorem set_normalize (s : Settings) (flag : Bool) :
    s.set "normalize" (flagText flag) = .ok { s with normalize := flag } := by
  rw [set, show Key.ofName? "normalize" = some .normalize from Key.ofName?_name .normalize]
  simp only [flagOfText?_flagText]

/-- Both settings are set in either order, and what they were before does not count. -/
theorem set_both (s : Settings) (matrix : String) (flag : Bool) :
    (s.set "matrix" matrix >>= fun t => t.set "normalize" (flagText flag)) = .ok ⟨matrix, flag⟩ ∧
      (s.set "normalize" (flagText flag) >>= fun t => t.set "matrix" matrix) =
        .ok ⟨matrix, flag⟩ := by
  constructor
  · rw [set_matrix, ok_bind, set_normalize]
  · rw [set_normalize, ok_bind, set_matrix]

end Settings

/-! ## Descriptors -/

namespace Scene

open Settings (Key)

/-- A pair as it is written. -/
def pairText (key : Key) (value : String) : List Char := key.name.toList ++ '=' :: value.toList

/-- A value that stands unchanged in a descriptor. -/
structure Holds (value : String) : Prop where
  colon : ':' ∉ value.toList
  last : ∀ c ∈ value.toList.getLast?, isBlank c = false

/-- The text of a flag stands unchanged in a descriptor. -/
theorem holds_flagText (flag : Bool) : Holds (Settings.flagText flag) := by
  refine ⟨by cases flag <;> decide, fun c hc => ?_⟩
  cases flag
  · obtain rfl := Option.some.inj hc
    decide
  · obtain rfl := Option.some.inj hc
    decide

/-- A text of shown ASCII characters and spaces stands unchanged in a descriptor, if it has no
    colon and no space at its end. -/
theorem holds_of_shown {value : String}
    (hshown : ∀ c ∈ value.toList, 0x20 ≤ c.toNat ∧ c.toNat ≤ 0x7e) (hcolon : ':' ∉ value.toList)
    (hlast : value.toList.getLast? ≠ some ' ') : Holds value := by
  refine ⟨hcolon, fun c hc => ?_⟩
  obtain ⟨hlow, hhigh⟩ := hshown c (List.mem_of_getLast? hc)
  have hspace : c.toNat ≠ 0x20 := fun heq => hlast ((Char.toNat_inj.1 heq : c = ' ') ▸ hc)
  simp [isBlank, blankRanges]
  omega

/-- A pair without colons is one piece. -/
theorem not_mem_pairText (key : Key) {value : String} (h : Holds value) :
    ':' ∉ pairText key value := by
  rw [pairText, List.mem_append, List.mem_cons]
  rintro (hname | heq | hvalue)
  · cases key <;> revert hname <;> decide
  · exact absurd heq (by decide)
  · exact h.colon hvalue

/-- A pair without blanks at its end is not trimmed. -/
theorem trim_pairText (key : Key) {value : String} (h : Holds value) :
    trim (pairText key value) = pairText key value := by
  refine trim_of_ends ?_ ?_
  · cases key <;> exact fun c hc => by obtain rfl := Option.some.inj hc; decide
  · intro c hc
    rw [pairText, List.getLast?_append, List.getLast?_cons, Option.some_or] at hc
    obtain rfl := Option.some.inj hc
    -- The last character is the equals sign or that of the value
    cases hvalue : value.toList.getLast? with
    | none => decide
    | some c => exact h.last c hvalue

/-- A pair sets its value. -/
theorem applyPiece_pairText (s : Settings) (isHead : Bool) (key : Key) (value : String) :
    applyPiece s isHead (pairText key value) = s.set key.name value := by
  have hsplit : splitFirst? '=' (pairText key value) = some (key.name.toList, value.toList) :=
    splitFirst?_eq_some_iff.2 ⟨rfl, by cases key <;> decide⟩
  have hfull : (pairText key value).isEmpty = false := by cases key <;> rfl
  rw [applyPiece, hfull, hsplit]
  simp

/-- A descriptor of two pairs sets the one value and then the other. -/
theorem parse_pairs (first second : Key) {value other : String} (hvalue : Holds value)
    (hother : Holds other) :
    parse (String.ofList
        (name.toList ++ ':' :: (pairText first value ++ ':' :: pairText second other))) =
      (Settings.standard.set first.name value >>= fun s => s.set second.name other) := by
  have hpieces : pieces (String.ofList
      (name.toList ++ ':' :: (pairText first value ++ ':' :: pairText second other))) =
        [name.toList, pairText first value, pairText second other] := by
    rw [pieces, String.toList_ofList, split_append_cons (by decide),
      split_append_cons (not_mem_pairText first hvalue),
      split_of_not_mem (not_mem_pairText second hother)]
    simp only [List.map_cons, List.map_nil, trim_pairText first hvalue, trim_pairText second hother]
    rfl
  have hhead : applyPiece .standard true name.toList = .ok .standard := rfl
  rw [parse, apply, hpieces]
  simp only [applyPieces, hhead, applyPiece_pairText]
  cases Settings.standard.set first.name value with
  | error e => rfl
  | ok s =>
    dsimp only
    rw [ok_bind]
    cases s.set second.name other <;> rfl

end Scene

/-! ## Documents -/

namespace Settings

open Yaml (FieldLine IsWord recordText isInline)

/-- The line that gives the matrix, in double quotes. -/
def matrixLine (matrix : String) : FieldLine := ⟨Key.matrix.name.toList, .quoted matrix.toList⟩

/-- The line that gives the flag. -/
def normalizeLine (flag : Bool) : FieldLine :=
  ⟨Key.normalize.name.toList, .word (flagText flag).toList⟩

/-- The name of a setting is a word that can be a key. -/
theorem isWord_name (key : Key) : IsWord key.name.toList ∧ key.name.toList.length ≤ 1024 := by
  have hletters : key.name.toList.all Char.isAlpha = true := by cases key <;> decide
  refine ⟨⟨?_, List.all_eq_true.1 hletters⟩, ?_⟩
  · cases key <;> decide
  · cases key <;> decide

/-- The text of a flag is a word. -/
theorem isWord_flagText (flag : Bool) : IsWord (flagText flag).toList := by
  have hletters : (flagText flag).toList.all Char.isAlpha = true := by cases flag <;> decide
  exact ⟨by cases flag <;> decide, List.all_eq_true.1 hletters⟩

theorem fits_matrixLine {matrix : String} (h : ∀ c ∈ matrix.toList, isInline c) :
    (matrixLine matrix).Fits := ⟨(isWord_name .matrix).1, (isWord_name .matrix).2, h⟩

theorem fits_normalizeLine (flag : Bool) : (normalizeLine flag).Fits :=
  ⟨(isWord_name .normalize).1, (isWord_name .normalize).2, isWord_flagText flag⟩

/-- The two lines of settings, in either order. -/
def IsBoth (matrix : String) (flag : Bool) (lines : List FieldLine) : Prop :=
  lines = [matrixLine matrix, normalizeLine flag] ∨ lines = [normalizeLine flag, matrixLine matrix]

variable {matrix : String} {flag : Bool} {lines : List FieldLine}

theorem IsBoth.fits (hlines : IsBoth matrix flag lines) (h : ∀ c ∈ matrix.toList, isInline c) :
    ∀ line ∈ lines, line.Fits := by
  rcases hlines with rfl | rfl
  · simp [fits_matrixLine h, fits_normalizeLine]
  · simp [fits_matrixLine h, fits_normalizeLine]

/-- Each setting is found under its name. -/
theorem IsBoth.field? (hlines : IsBoth matrix flag lines) :
    Yaml.Node.field? (lines.map FieldLine.field) Key.matrix.name =
        .ok (some (matrixLine matrix).value.node) ∧
      Yaml.Node.field? (lines.map FieldLine.field) Key.normalize.name =
        .ok (some (normalizeLine flag).value.node) := by
  have hmatrix : (matrixLine matrix).field = ("matrix", (matrixLine matrix).value.node) := by
    rw [FieldLine.field, matrixLine, String.ofList_toList]
    rfl
  have hnormalize : (normalizeLine flag).field = ("normalize", (normalizeLine flag).value.node) := by
    rw [FieldLine.field, normalizeLine, String.ofList_toList]
    rfl
  rcases hlines with rfl | rfl
  · simp [hmatrix, hnormalize, Yaml.Node.field?, Key.name]
  · simp [hmatrix, hnormalize, Yaml.Node.field?, Key.name]

/-- A document of both lines, in either order, gives what the lines say. -/
theorem ofYaml_lines {ending : List Char} (hending : ending = [] ∨ ending = ['\n'])
    (h : ∀ c ∈ matrix.toList, isInline c) (hlines : IsBoth matrix flag lines) :
    ofYaml (String.ofList (recordText ending lines)) = .ok ⟨matrix, flag⟩ := by
  have hne : lines ≠ [] := by rcases hlines with rfl | rfl <;> exact List.cons_ne_nil _ _
  have hfields := Yaml.fields_recordText hending (hlines.fits h) hne
  have hread : ofYaml (String.ofList (recordText ending lines)) =
      (Yaml.document (String.ofList (recordText ending lines)) >>= Yaml.Node.fields) >>=
        fun record => do
          let matrix ← Yaml.Node.fieldOr record Key.matrix.name Yaml.Node.text standard.matrix
          let normalize ← Yaml.Node.fieldOr record Key.normalize.name Yaml.Node.flag
            standard.normalize
          return ⟨matrix, normalize⟩ := by
    rw [bind_assoc]
    rfl
  have htext : (matrixLine matrix).value.node.text = .ok matrix := by
    show Except.ok (String.ofList matrix.toList) = _
    rw [String.ofList_toList]
  have hflag : (normalizeLine flag).value.node.flag = .ok flag := by cases flag <;> rfl
  rw [hread, hfields, ok_bind]
  simp only [Yaml.Node.fieldOr, hlines.field?, ok_bind, htext, hflag]
  rfl

/-! ## The three forms -/

/-- A matrix of shown ASCII characters and spaces, without colon, quote and backslash and without a
    space at its end, is given together with a flag in each form, and in either order: as a
    descriptor, as the two lines of a document, and by setting the two values.  The texts of the
    settings set them again, from any settings. -/
theorem forms_agree (flag : Bool) {matrix : String}
    (hmatrix : ∀ c ∈ matrix.toList,
      0x20 ≤ c.toNat ∧ c.toNat ≤ 0x7e ∧ c ≠ ':' ∧ c ≠ '\x22' ∧ c ≠ '\x5c')
    (hlast : matrix.toList.getLast? ≠ some ' ') :
    Scene.parse ("effect2d:matrix=" ++ matrix ++ ":normalize=" ++ flagText flag) =
        .ok ⟨matrix, flag⟩ ∧
      Scene.parse ("effect2d:normalize=" ++ flagText flag ++ ":matrix=" ++ matrix) =
        .ok ⟨matrix, flag⟩ ∧
      (∀ ending, ending = "" ∨ ending = "\n" →
        ofYaml ("matrix: \x22" ++ matrix ++ "\x22\nnormalize: " ++ flagText flag ++ ending) =
            .ok ⟨matrix, flag⟩ ∧
          ofYaml ("normalize: " ++ flagText flag ++ "\nmatrix: \x22" ++ matrix ++ "\x22" ++ ending) =
            .ok ⟨matrix, flag⟩) ∧
      (∀ s : Settings,
        (s.set "matrix" matrix >>= fun t => t.set "normalize" (flagText flag)) =
            .ok ⟨matrix, flag⟩ ∧
          (s.set "normalize" (flagText flag) >>= fun t => t.set "matrix" matrix) =
            .ok ⟨matrix, flag⟩) ∧
      Settings.get? ⟨matrix, flag⟩ "matrix" = some matrix ∧
      Settings.get? ⟨matrix, flag⟩ "normalize" = some (flagText flag) := by
  have hinline : ∀ c ∈ matrix.toList, isInline c := by
    intro c hc
    obtain ⟨hlow, hhigh, -, hquote, hescape⟩ := hmatrix c hc
    simp [isInline, hlow, hhigh, hquote, hescape]
  have hholds : Scene.Holds matrix := Scene.holds_of_shown
    (fun c hc => ⟨(hmatrix c hc).1, (hmatrix c hc).2.1⟩) (fun hc => (hmatrix ':' hc).2.2.1 rfl) hlast
  have hflag := Scene.holds_flagText flag
  refine ⟨?_, ?_, fun ending hending => ⟨?_, ?_⟩, fun s => set_both s matrix flag, ?_, ?_⟩
  · have htext : "effect2d:matrix=" ++ matrix ++ ":normalize=" ++ flagText flag =
        String.ofList (Scene.name.toList ++ ':' :: (Scene.pairText .matrix matrix ++
          ':' :: Scene.pairText .normalize (flagText flag))) := by
      rw [← String.toList_inj]
      simp [Scene.name, Scene.pairText, Key.name]
    rw [htext, Scene.parse_pairs _ _ hholds hflag]
    exact (set_both standard matrix flag).1
  · have htext : "effect2d:normalize=" ++ flagText flag ++ ":matrix=" ++ matrix =
        String.ofList (Scene.name.toList ++ ':' :: (Scene.pairText .normalize (flagText flag) ++
          ':' :: Scene.pairText .matrix matrix)) := by
      rw [← String.toList_inj]
      simp [Scene.name, Scene.pairText, Key.name]
    rw [htext, Scene.parse_pairs _ _ hflag hholds]
    exact (set_both standard matrix flag).2
  · have htext : "matrix: \x22" ++ matrix ++ "\x22\nnormalize: " ++ flagText flag ++ ending =
        String.ofList (recordText ending.toList [matrixLine matrix, normalizeLine flag]) := by
      rw [← String.toList_inj]
      simp [recordText, FieldLine.chars, Yaml.FieldValue.chars, matrixLine, normalizeLine, Key.name]
    rw [htext]
    exact ofYaml_lines (by rcases hending with rfl | rfl <;> simp) hinline (Or.inl rfl)
  · have htext : "normalize: " ++ flagText flag ++ "\nmatrix: \x22" ++ matrix ++ "\x22" ++ ending =
        String.ofList (recordText ending.toList [normalizeLine flag, matrixLine matrix]) := by
      rw [← String.toList_inj]
      simp [recordText, FieldLine.chars, Yaml.FieldValue.chars, matrixLine, normalizeLine, Key.name]
    rw [htext]
    exact ofYaml_lines (by rcases hending with rfl | rfl <;> simp) hinline (Or.inr rfl)
  · rfl
  · rfl

/-- Marks and blanks that mean something elsewhere are part of a matrix in each form. -/
theorem forms_agree_marks :
    ∃ matrix, matrix = "  #a, \x27x\x27 - \x7b[&*!|>%@~ ? =1;=" ∧
      (∀ c ∈ matrix.toList,
        0x20 ≤ c.toNat ∧ c.toNat ≤ 0x7e ∧ c ≠ ':' ∧ c ≠ '\x22' ∧ c ≠ '\x5c') ∧
      matrix.toList.getLast? ≠ some ' ' ∧
      Scene.parse ("effect2d:normalize=" ++ flagText false ++ ":matrix=" ++ matrix) =
        .ok ⟨matrix, false⟩ ∧
      ofYaml ("normalize: " ++ flagText false ++ "\nmatrix: \x22" ++ matrix ++ "\x22" ++ "") =
        .ok ⟨matrix, false⟩ := by
  obtain ⟨matrix, hmatrix⟩ : ∃ matrix, matrix = "  #a, \x27x\x27 - \x7b[&*!|>%@~ ? =1;=" := ⟨_, rfl⟩
  have hall : matrix.toList.all fun c =>
      0x20 ≤ c.toNat ∧ c.toNat ≤ 0x7e ∧ c ≠ ':' ∧ c ≠ '\x22' ∧ c ≠ '\x5c' := by
    rw [hmatrix]
    decide
  have hchars := fun c hc => of_decide_eq_true (List.all_eq_true.1 hall c hc)
  have hlast : matrix.toList.getLast? ≠ some ' ' := by
    rw [hmatrix]
    decide
  obtain ⟨-, hscene, hyaml, -⟩ := forms_agree false hchars hlast
  exact ⟨matrix, hmatrix, hchars, hlast, hscene, (hyaml "" (Or.inl rfl)).2⟩

end Settings

end Stencil
