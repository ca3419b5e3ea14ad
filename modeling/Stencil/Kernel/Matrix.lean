import Stencil.Decimal.Numeral
import Stencil.Kernel.Basic
import Stencil.Text.Blank
import Stencil.Text.Pieces

/-! # Matrix notation

A kernel is written as its rows separated by `;`, each row as its elements separated by `,`.  One
delimiter may end the text and one may end each row.  Blanks around an element do not count, and
every element is a finite number.

`parse` reads this notation and reports the first defect in reading order; `text` writes it.
`shape_of_parseChars` says that what is read is a filled rectangle.
-/

namespace Stencil.Kernel

open Text

/-- Separates the rows of a matrix. -/
def rowDelimiter : Char := ';'

/-- Separates the elements of a row. -/
def elementDelimiter : Char := ','

/-- The pieces of a text whose last delimiter may be left over.  A text without content has no
pieces. -/
def fields (delimiter : Char) (cs : List Char) : List (List Char) :=
  match dropTrailing delimiter cs with
  | [] => []
  | content => split delimiter content

/-- The elements of a row, untrimmed. -/
def elements (row : List Char) : List (List Char) := fields elementDelimiter row

/-- The value of an element. -/
def readElement (row column : Nat) (token : List Char) : Except Error Float32 :=
  match Numeral.readSingle? (trim token) with
  | some weight => .ok weight
  | none => .error (.notANumber row column (String.ofList token))

/-- The values of the elements of a row, from the given column on. -/
def readElements (row : Nat) : Nat → List (List Char) → Except Error (List Float32)
  | _, [] => .ok []
  | column, token :: rest => do
    let weight ← readElement row column token
    let weights ← readElements row (column + 1) rest
    return weight :: weights

/-- The values of a row.  The number of elements is checked before the first of them is read. -/
def readRow (width row : Nat) (line : List Char) : Except Error (List Float32) :=
  let tokens := elements line
  if tokens.length = width then readElements row 0 tokens
  else .error (.raggedRow row tokens.length width)

/-- The values of all rows, from the given row on. -/
def readRows (width : Nat) : Nat → List (List Char) → Except Error (List Float32)
  | _, [] => .ok []
  | row, line :: rest => do
    let weights ← readRow width row line
    let below ← readRows width (row + 1) rest
    return weights ++ below

/-- The number of elements that the first row asks of every row. -/
def widthOf (rows : List (List Char)) : Nat :=
  match rows with
  | [] => 0
  | first :: _ => (elements first).length

/-- Reads a matrix given as characters. -/
def parseChars (cs : List Char) : Except Error Kernel := do
  let rows := fields rowDelimiter cs
  let width := widthOf rows
  let weights ← readRows width 0 rows
  if width = 0 then .error .empty else .ok ⟨weights, width, rows.length⟩

/-- Reads a matrix. -/
def parse (s : String) : Except Error Kernel := parseChars s.toList

/-- What stands before the weight with a positive index. -/
def separator (width index : Nat) : Char :=
  if 0 < width ∧ index % width = 0 then rowDelimiter else elementDelimiter

/-- Writes weights, each but the first of all behind its separator. -/
def writeWeights (width : Nat) : Nat → List Float32 → List Char
  | _, [] => []
  | 0, w :: ws => Decimal.writeSingle w ++ writeWeights width 1 ws
  | index + 1, w :: ws =>
    separator width (index + 1) :: (Decimal.writeSingle w ++ writeWeights width (index + 2) ws)

/-- A kernel in matrix notation, with the shortest text of every weight. -/
def text (k : Kernel) : String := String.ofList (writeWeights k.width 0 k.weights)

/-- Every element gives one weight. -/
theorem readElements_length {row column : Nat} {tokens : List (List Char)} {weights : List Float32}
    (h : readElements row column tokens = .ok weights) : weights.length = tokens.length := by
  induction tokens generalizing column weights with
  | nil =>
    obtain rfl : [] = weights := Except.ok.inj h
    rfl
  | cons token rest ih =>
    unfold readElements at h
    cases value : readElement row column token with
    | error e => simp [value, bind, Except.bind] at h
    | ok weight =>
      cases others : readElements row (column + 1) rest with
      | error e => simp [value, others, bind, Except.bind] at h
      | ok more =>
        simp only [value, others, bind, Except.bind, pure, Except.pure] at h
        obtain rfl : weight :: more = weights := Except.ok.inj h
        rw [List.length_cons, List.length_cons, ih others]

/-- A row gives as many weights as are asked of it. -/
theorem readRow_length {width row : Nat} {line : List Char} {weights : List Float32}
    (h : readRow width row line = .ok weights) : weights.length = width := by
  simp only [readRow] at h
  split at h
  · rename_i fits
    rw [readElements_length h, fits]
  · exact absurd h (by simp)

/-- The rows give a full rectangle. -/
theorem readRows_length {width row : Nat} {rows : List (List Char)} {weights : List Float32}
    (h : readRows width row rows = .ok weights) : weights.length = width * rows.length := by
  induction rows generalizing row weights with
  | nil =>
    obtain rfl : [] = weights := Except.ok.inj h
    rfl
  | cons line rest ih =>
    unfold readRows at h
    cases first : readRow width row line with
    | error e => simp [first, bind, Except.bind] at h
    | ok above =>
      cases others : readRows width (row + 1) rest with
      | error e => simp [first, others, bind, Except.bind] at h
      | ok below =>
        simp only [first, others, bind, Except.bind, pure, Except.pure] at h
        obtain rfl : above ++ below = weights := Except.ok.inj h
        rw [List.length_append, readRow_length first, ih others, List.length_cons, Nat.mul_succ,
          Nat.add_comm]

/-- What a text denotes is a filled rectangle with at least one column. -/
theorem shape_of_parseChars {cs : List Char} {k : Kernel} (h : parseChars cs = .ok k) :
    0 < k.width ∧ k.isConsistent := by
  unfold parseChars at h
  cases weights : readRows (widthOf (fields rowDelimiter cs)) 0 (fields rowDelimiter cs) with
  | error e => simp [weights, bind, Except.bind] at h
  | ok ws =>
    simp only [weights, bind, Except.bind] at h
    split at h
    · exact absurd h (by simp)
    · rename_i wide
      obtain rfl : _ = k := Except.ok.inj h
      exact ⟨Nat.pos_of_ne_zero wide, by
        rw [isConsistent_iff]
        exact (readRows_length weights).symm⟩

end Stencil.Kernel
