import Stencil.Proofs.Shader.Phrases
import Stencil.Proofs.Text.Joined

/-!
# Reading generated code back

A reader for the three phrases of generated code: a line that declares a constant, a texture read,
and the statement that adds texture reads up.  Each reader looks for the fixed words in their order,
and takes what stands between them.

Texture reads hold ` + ` themselves, so the statement is cut at the line feeds behind the plus
signs: `cut_intercalate` needs only that no texture read holds a line feed.

## Key results

- `readDeclaration?_constant`: a declaration is read as its name and literal
- `readTerm?_fetch`: a texture read is read as its offsets and weight
- `readStatement?_statement`: a statement is read as its terms
-/

namespace Stencil.Shader

open Text

/-! ## Fixed words -/

/-- What follows the given text, if that stands first. -/
def behind? (start cs : List Char) : Option (List Char) :=
  if start.isPrefixOf cs then some (cs.drop start.length) else none

/-- What precedes the given text, if that stands last. -/
def ahead? (ending cs : List Char) : Option (List Char) :=
  if ending.isSuffixOf cs then some (cs.take (cs.length - ending.length)) else none

/-- What precedes and what follows a mark.  The mark has to stand where its first character does. -/
def around? : List Char → List Char → Option (List Char × List Char)
  | [], _ => none
  | first :: more, cs => do
    let (piece, rest) ← splitFirst? first cs
    let rest ← behind? more rest
    return (piece, rest)

theorem behind?_append (start rest : List Char) : behind? start (start ++ rest) = some rest := by
  unfold behind?
  rw [if_pos (List.isPrefixOf_iff_prefix.2 (List.prefix_append start rest)), List.drop_left]

theorem ahead?_append (front ending : List Char) :
    ahead? ending (front ++ ending) = some front := by
  unfold ahead?
  rw [if_pos (List.isSuffixOf_iff_suffix.2 (List.suffix_append front ending)),
    List.length_append, Nat.add_sub_cancel, List.take_left]

/-- A text is read around a mark whose first character it does not hold before. -/
theorem around?_append {first : Char} {more piece : List Char} (h : first ∉ piece)
    (rest : List Char) :
    around? (first :: more) (piece ++ (first :: more ++ rest)) = some (piece, rest) := by
  have hsplit : splitFirst? first (piece ++ (first :: more ++ rest)) =
      some (piece, more ++ rest) := splitFirst?_eq_some_iff.2 ⟨rfl, h⟩
  simp only [around?, hsplit, behind?_append, Option.bind_eq_bind, Option.bind_some]
  rfl

/-! ## Declarations -/

/-- What a declaration says: the name of a constant and the literal that it stands for. -/
structure Declaration where
  name : List Char
  literal : List Char
deriving DecidableEq

/-- Reads a line that declares a constant. -/
def readDeclaration? (dialect : Dialect) (line : List Char) : Option Declaration := do
  let rest ← behind? dialect.constantStart line
  let (name, rest) ← around? dialect.constantMiddle rest
  let literal ← ahead? ";\n".toList rest
  return ⟨name, literal⟩

/-- The line of a declaration is read as its name and literal, if the name holds neither a blank nor
    a colon. -/
theorem readDeclaration?_constant (dialect : Dialect) {name : String} (value : Float32)
    (hblank : ' ' ∉ name.toList) (hcolon : ':' ∉ name.toList) :
    readDeclaration? dialect ((dialect.constant name value).toList ++ ['\n']) =
      some ⟨name.toList, (Decimal.fixed Dialect.constantPlaces value).toList⟩ := by
  have hend : [';'] ++ ['\n'] = ";\n".toList := rfl
  -- The mark behind the name begins with a blank or a colon.
  have hmiddle : ∀ rest, around? dialect.constantMiddle
      (name.toList ++ (dialect.constantMiddle ++ rest)) = some (name.toList, rest) := by
    intro rest
    cases dialect with
    | glsl => exact around?_append hblank rest
    | wgsl => exact around?_append hcolon rest
  unfold readDeclaration?
  rw [Dialect.toList_constant]
  simp only [List.append_assoc, hend, behind?_append, hmiddle, ahead?_append,
    Option.bind_eq_bind, Option.bind_some]
  rfl

/-! ## Texture reads -/

/-- What a texture read says: how many of each step it is away, and the weight it is scaled by. -/
structure Fetch where
  x : List Char
  stepX : List Char
  y : List Char
  stepY : List Char
  weight : List Char
deriving DecidableEq

/-- Reads a texture read that is scaled by a weight. -/
def readTerm? (dialect : Dialect) (term : List Char) : Option Fetch := do
  let rest ← behind? dialect.fetchStart term
  let (x, rest) ← around? " * ".toList rest
  let (stepX, rest) ← around? ", ".toList rest
  let (y, rest) ← around? " * ".toList rest
  let (stepY, weight) ← around? ")) * ".toList rest
  return ⟨x, stepX, y, stepY, weight⟩

/-- A texture read is read as its offsets and weight, if the names of the steps hold no mark. -/
theorem readTerm?_fetch (dialect : Dialect) (x y : Float32) {stepX stepY : String}
    (weight : String) (hcomma : ',' ∉ stepX.toList) (hparen : ')' ∉ stepY.toList) :
    readTerm? dialect (dialect.fetch x y stepX stepY weight).toList =
      some ⟨(Decimal.fixed Dialect.offsetPlaces x).toList, stepX.toList,
        (Decimal.fixed Dialect.offsetPlaces y).toList, stepY.toList, weight.toList⟩ := by
  have hblank : ∀ z, ' ' ∉ (Decimal.fixed Dialect.offsetPlaces z).toList := fun z =>
    Decimal.not_mem_fixed (by decide) (by decide)
  have hproduct : ∀ z rest, around? " * ".toList
      ((Decimal.fixed Dialect.offsetPlaces z).toList ++ (" * ".toList ++ rest)) =
        some ((Decimal.fixed Dialect.offsetPlaces z).toList, rest) :=
    fun z rest => around?_append (hblank z) rest
  have hstepX : ∀ rest, around? ", ".toList (stepX.toList ++ (", ".toList ++ rest)) =
      some (stepX.toList, rest) := fun rest => around?_append hcomma rest
  have hstepY : ∀ rest, around? ")) * ".toList (stepY.toList ++ (")) * ".toList ++ rest)) =
      some (stepY.toList, rest) := fun rest => around?_append hparen rest
  unfold readTerm?
  rw [Dialect.toList_fetch]
  simp only [behind?_append, hproduct, hstepX, hstepY, Option.bind_eq_bind, Option.bind_some]
  rfl

/-! ## Statements -/

/-- Reads the statement that assigns a sum to a variable, as the terms of the sum. -/
def readStatement? (outputVariable : String) (cs : List Char) : Option (List (List Char)) := do
  let rest ← behind? (outputVariable.toList ++ " = ".toList) cs
  let sum ← ahead? ";\n".toList rest
  return cut " +\n".toList sum

/-- A statement is the variable, its terms joined, and the end. -/
theorem toList_statement (program : Program) :
    program.statement.toList = program.outputVariable.toList ++ " = ".toList ++
      " +\n".toList.intercalate (program.terms.map String.toList) ++ ";\n".toList := by
  unfold Program.statement
  simp only [String.toList_append, String.toList_intercalate]

/-- A statement is read as its terms, when there is one and none of them holds a line feed. -/
theorem readStatement?_statement {program : Program} (hne : program.terms ≠ [])
    (hfree : ∀ term ∈ program.terms, '\n' ∉ term.toList) :
    readStatement? program.outputVariable program.statement.toList =
      some (program.terms.map String.toList) := by
  have hpieces : ∀ piece ∈ program.terms.map String.toList, '\n' ∉ piece := by
    intro piece hpiece
    obtain ⟨term, hterm, rfl⟩ := List.mem_map.1 hpiece
    exact hfree term hterm
  -- The line feed ends the separator and stands nowhere else
  have hcut : cut " +\n".toList (" +\n".toList.intercalate (program.terms.map String.toList)) =
      program.terms.map String.toList :=
    cut_intercalate (mt List.map_eq_nil_iff.1 hne) (by decide : '\n' ∉ [' ', '+']) hpieces
  unfold readStatement?
  rw [toList_statement, List.append_assoc _ _ ";\n".toList, behind?_append]
  simp only [ahead?_append, Option.bind_eq_bind, Option.bind_some, hcut]
  rfl

end Stencil.Shader
