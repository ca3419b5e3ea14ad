import Stencil.Fault
import Stencil.Shader.Error
import Stencil.Text.Occurrence
import Stencil.Text.Pieces
import Stencil.Text.Position

/-! # Templates

A template is shader text that grows: declarations are inserted at a cursor, and a token is
replaced everywhere.  The cursor starts behind the preamble, the directives and comments that
have to stay in front of all declarations, and moves along with what is inserted and replaced
before it.  It is a byte position.

A match that straddles the cursor is replaced but not counted as standing before it, so the cursor
can come to rest at a position where nothing can be inserted.  The operations then are abandoned
with a fault.
-/

namespace Stencil

/-- Shader text with the position of the next declaration. -/
structure Template where
  text : String
  dialect : Dialect
  cursor : Nat
deriving DecidableEq, Repr

namespace Template

open Text

/-- The texts that start a line of the preamble. -/
def directiveMarks : List (List Char) :=
  ["#".toList, "//".toList, "/*".toList, "*".toList, "precision ".toList, "enable ".toList]

/-- Whether a line is a directive or part of a comment. -/
def isDirective (line : List Char) : Bool :=
  directiveMarks.any fun mark => mark.isPrefixOf (trim line)

/-- Whether a line holds nothing but blanks. -/
def isBlankLine (line : List Char) : Bool := (trim line).isEmpty

/-- The lines of the preamble: directives and the blank lines before a directive. -/
def preamble : List (List Char) → List (List Char)
  | [] => []
  | line :: rest =>
    if isBlankLine line then
      match preamble rest with
      | [] => []
      | directives => line :: directives
    else if isDirective line then line :: preamble rest
    else []

/-- The position behind the preamble of a text. -/
def preambleEnd (cs : List Char) : Nat := byteLength (preamble (lines cs)).flatten

/-- The preamble is an initial part of the lines. -/
theorem preamble_prefix (ls : List (List Char)) : preamble ls <+: ls := by
  induction ls with
  | nil => exact List.prefix_refl []
  | cons line rest ih =>
    unfold preamble
    split
    · split
      · exact List.nil_prefix
      · exact List.cons_prefix_cons.2 ⟨rfl, ih⟩
    · split
      · exact List.cons_prefix_cons.2 ⟨rfl, ih⟩
      · exact List.nil_prefix

/-- The preamble ends at a good position. -/
theorem splitAtByte?_preambleEnd (cs : List Char) :
    ∃ after, splitAtByte? (preambleEnd cs) cs = some ((preamble (lines cs)).flatten, after) := by
  obtain ⟨rest, whole⟩ := preamble_prefix (lines cs)
  have text : (preamble (lines cs)).flatten ++ rest.flatten = cs := by
    rw [← List.flatten_append, whole, flatten_lines]
  have found := splitAtByte?_byteLength (preamble (lines cs)).flatten rest.flatten
  rw [text] at found
  exact ⟨rest.flatten, found⟩

/-- A template with its cursor behind the preamble. -/
def ofText (text : String) (dialect : Dialect) : Template :=
  ⟨text, dialect, preambleEnd text.toList⟩

/-- Inserts a text at the cursor and moves the cursor behind it. -/
def insert (t : Template) (addition : String) : Except Fault Template :=
  match splitAtByte? t.cursor t.text.toList with
  | some (before, after) =>
    .ok { t with
      text := String.ofList (before ++ addition.toList ++ after)
      cursor := t.cursor + byteLength addition.toList }
  | none => .error .badPosition

/-- Declares a constant, on a line of its own if the cursor stands at the start of one. -/
def declare (t : Template) (name : String) (value : Float32) : Except Fault Template := do
  let t ← t.insert (t.dialect.constant name value)
  t.insert "\n"

/-- The position of the cursor after every match of a token in the text `before` it has been
replaced. -/
def movedCursor (cursor : Nat) (token new before : List Char) : Nat :=
  let count := matchCount token before
  cursor - count * byteLength token + count * byteLength new

/-- Replaces every match of a token. -/
def substitute (t : Template) (token new : String) : Except (Failure Shader.Error) Template :=
  if token.toList = [] ∨ !occurs token.toList t.text.toList then
    .error (.refused (.missingPlaceholder token))
  else
    match splitAtByte? t.cursor t.text.toList with
    | some (before, _) =>
      .ok { t with
        text := String.ofList (replace token.toList new.toList t.text.toList)
        cursor := movedCursor t.cursor token.toList new.toList before }
    | none => .error (.fault .badPosition)

end Template

end Stencil
