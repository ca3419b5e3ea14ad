import Stencil.Proofs.Outcome
import Stencil.Proofs.Text.Joined
import Stencil.Shader.Template

/-!
# The cursor of a template

A template is a text in two parts with the cursor between them.  `CutAt` is that view: the part in
front of the cursor and the part behind it.  Every operation is described on the two parts, so that
what a sequence of insertions makes of a template is a fact about appending lists, and no byte
position is ever computed outside of this module.

## Key results

- `cutAt_ofText`: a fresh template is cut behind its preamble
- `insert_eq_ok` / `declare_eq_ok`: an insertion succeeds and extends the front part
- `substitute_eq`: when a substitution succeeds, and what it makes of the text
- `preamble_ends_line`: the preamble ends with a line, unless one of the parts is empty
-/

namespace Stencil.Template

open Text

/-- The text of a template is `before ++ after`, and its cursor stands between the two. -/
structure CutAt (t : Template) (before after : List Char) : Prop where
  text_eq : t.text.toList = before ++ after
  cursor_eq : t.cursor = byteLength before

/-- A template is found cut at its cursor. -/
theorem CutAt.splitAtByte? {t : Template} {before after : List Char} (h : t.CutAt before after) :
    Text.splitAtByte? t.cursor t.text.toList = some (before, after) := by
  rw [h.text_eq, h.cursor_eq, splitAtByte?_byteLength]

/-- A fresh template is cut where its preamble ends. -/
theorem cutAt_ofText {text : String} {before after : List Char} (dialect : Dialect)
    (h : Text.splitAtByte? (preambleEnd text.toList) text.toList = some (before, after)) :
    (ofText text dialect).CutAt before after := by
  obtain ⟨htext, hlength⟩ := splitAtByte?_eq_some_iff.1 h
  exact ⟨htext, hlength.symm⟩

/-! ## Insertions -/

/-- A template with a text inserted between its parts. -/
def extended (t : Template) (before after : List Char) (addition : String) : Template :=
  { t with
    text := String.ofList (before ++ addition.toList ++ after)
    cursor := t.cursor + byteLength addition.toList }

/-- An insertion succeeds and puts its text between the parts. -/
theorem insert_eq_ok {t : Template} {before after : List Char} (h : t.CutAt before after)
    (addition : String) : t.insert addition = .ok (t.extended before after addition) := by
  unfold insert
  rw [h.splitAtByte?]
  rfl

/-- What is inserted becomes the end of the front part. -/
theorem cutAt_extended {t : Template} {before after : List Char} (h : t.CutAt before after)
    (addition : String) :
    (t.extended before after addition).CutAt (before ++ addition.toList) after where
  text_eq := String.toList_ofList
  cursor_eq := by rw [byteLength_append, ← h.cursor_eq]; rfl

/-- The line that declares a constant. -/
def declarationLine (dialect : Dialect) (name : String) (value : Float32) : List Char :=
  (dialect.constant name value).toList ++ ['\n']

/-- A declaration succeeds and extends the front part by its line. -/
theorem declare_eq_ok {t : Template} {before after : List Char} (h : t.CutAt before after)
    (name : String) (value : Float32) :
    ∃ t', t.declare name value = .ok t' ∧ t'.dialect = t.dialect ∧
      t'.CutAt (before ++ declarationLine t.dialect name value) after := by
  -- Two insertions: the declaration, then its line feed behind it
  have hcut := cutAt_extended h (t.dialect.constant name value)
  have hcut' := cutAt_extended hcut "\n"
  rw [List.append_assoc] at hcut'
  refine ⟨(t.extended before after (t.dialect.constant name value)).extended
    (before ++ (t.dialect.constant name value).toList) after "\n", ?_, rfl, hcut'⟩
  rw [declare, insert_eq_ok h, ok_bind]
  exact insert_eq_ok hcut "\n"

/-! ## Substitutions -/

/-- A substitution is refused when the token is empty or stands nowhere in the text, and otherwise
    replaces every match in the text. -/
theorem substitute_eq {t : Template} {before after : List Char} (h : t.CutAt before after)
    (token new : String) :
    t.substitute token new =
      if token.toList = [] ∨ !occurs token.toList (before ++ after) then
        .error (.refused (.missingPlaceholder token))
      else
        .ok { t with
          text := String.ofList (replace token.toList new.toList (before ++ after))
          cursor := movedCursor t.cursor token.toList new.toList before } := by
  unfold substitute
  rw [h.splitAtByte?, h.text_eq]

/-! ## The end of the preamble -/

/-- Every line of a preamble is a whole line, so a preamble in front of which the text goes on ends
    in a line feed. -/
theorem preamble_ends_line {cs before after : List Char}
    (h : splitAtByte? (preambleEnd cs) cs = some (before, after)) :
    before = [] ∨ after = [] ∨ before.getLast? = some '\n' := by
  obtain ⟨rest, hlines⟩ := preamble_prefix (lines cs)
  -- The parts are the lines of the preamble and the lines behind it
  have hparts : (preamble (lines cs)).flatten ++ rest.flatten = cs := by
    rw [← List.flatten_append, hlines, flatten_lines]
  have hfound := splitAtByte?_byteLength (preamble (lines cs)).flatten rest.flatten
  rw [hparts] at hfound
  obtain ⟨rfl, rfl⟩ := Prod.mk.inj (Option.some.inj (hfound.symm.trans h))
  rcases List.eq_nil_or_concat (preamble (lines cs)) with hnil | ⟨front, line, hconcat⟩
  · exact Or.inl (by rw [hnil]; rfl)
  · cases rest with
    | nil => exact Or.inr (Or.inl rfl)
    | cons next more =>
      -- The last line of the preamble is followed by a line, so it ends in a line feed.
      rw [List.concat_eq_append] at hconcat
      rw [hconcat] at hlines
      have hwhole : lines cs = front ++ line :: (next :: more) := by simpa using hlines.symm
      have hlast := getLast?_of_lines_eq hwhole (List.cons_ne_nil _ _)
      right; right
      rw [hconcat, List.flatten_append, List.getLast?_append]
      simp [hlast]

end Stencil.Template
