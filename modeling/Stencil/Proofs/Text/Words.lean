import Mathlib
import Stencil.Proofs.Text.Joined
import Stencil.Text.Blank
import Stencil.Text.Column

/-!
# Words and lines

A table is read back by cutting its text into lines and its lines into words, the pieces between
blanks.  Columns are filled up with blanks only, so a cell is read as it was, however wide it is.

## Key results

- `words_append_cons`: a blank separates the words before it from those behind it
- `words_alignRight`: a column adds nothing to the words of its text
- `words_intercalate`: the words of texts with blanks between them
- `lines_flatten`: lines that were put one behind the other are found again
- `IsBlock`: a block of lines, none of them empty
-/

namespace Stencil.Text

/-! ## Words -/

/-- The words of a text, in order: what stands between its blanks. -/
def words (cs : List Char) : List (List Char) :=
  (cs.splitOnP isBlank).filter fun word => !word.isEmpty

theorem words_nil : words [] = [] := by
  simp [words]

/-- A blank separates the words before it from those behind it. -/
theorem words_append_cons {c : Char} (h : isBlank c) (before after : List Char) :
    words (before ++ c :: after) = words before ++ words after := by
  rw [words, List.splitOnP_append_cons before after h, List.filter_append]
  rfl

/-- Blanks in front of a text add no words. -/
theorem words_cons {c : Char} (h : isBlank c) (after : List Char) :
    words (c :: after) = words after :=
  words_append_cons h [] after

/-- A text without blanks is one word. -/
theorem words_of_forall {cs : List Char} (hne : cs ≠ []) (hfree : ∀ c ∈ cs, isBlank c = false) :
    words cs = [cs] := by
  rw [words, List.splitOnP_eq_singleton hfree]
  simp [hne]

/-- A column adds nothing to the words of its text. -/
theorem words_alignRight (width : Nat) (s : String) :
    words (alignRight width s).toList = words s.toList := by
  rw [alignRight, String.toList_ofList]
  induction width - s.length with
  | zero => rfl
  | succ n ih => rw [List.replicate_succ, List.cons_append, words_cons (by decide), ih]

/-- The words of texts with blanks between them are the words of the texts. -/
theorem words_intercalate (pieces : List (List Char)) :
    words ([' '].intercalate pieces) = pieces.flatMap words := by
  induction pieces with
  | nil => rfl
  | cons piece rest ih =>
    cases rest with
    | nil => simp
    | cons next more =>
      rw [List.intercalate_cons_cons, List.append_assoc, List.singleton_append,
        words_append_cons (by decide), ih]
      rfl

/-! ## Lines -/

/-- Whether a text is a line with its line feed. -/
def IsLine (cs : List Char) : Prop := ∃ body, cs = body ++ ['\n'] ∧ '\n' ∉ body

/-- Lines that were put one behind the other are found again. -/
theorem lines_flatten {ls : List (List Char)} (h : ∀ l ∈ ls, IsLine l) :
    lines ls.flatten = ls := by
  induction ls with
  | nil => rfl
  | cons line more ih =>
    obtain ⟨body, rfl, hbody⟩ := h line List.mem_cons_self
    rw [List.flatten_cons, List.append_assoc, List.singleton_append, lines_append_cons hbody,
      ih fun l hl => h l (List.mem_cons_of_mem _ hl)]

/-- The words of a line are those in front of its line feed. -/
theorem words_append_feed (body : List Char) : words (body ++ ['\n']) = words body := by
  rw [words_append_cons (by decide), words_nil, List.append_nil]

/-! ## Blocks -/

/-- Whether a text is a block of lines, none of them empty. -/
def IsBlock (cs : List Char) : Prop :=
  ∃ ls : List (List Char), cs = ls.flatten ∧ ∀ l ∈ ls, IsLine l ∧ l ≠ ['\n']

theorem isBlock_nil : IsBlock [] := ⟨[], rfl, by simp⟩

/-- A line with something on it is a block. -/
theorem isBlock_append_feed {body : List Char} (hfree : '\n' ∉ body) (hne : body ≠ []) :
    IsBlock (body ++ ['\n']) := by
  refine ⟨[body ++ ['\n']], by simp, fun l hl => ?_⟩
  obtain rfl := List.mem_singleton.1 hl
  exact ⟨⟨body, rfl, hfree⟩, by simpa using hne⟩

/-- A block behind a block makes a block. -/
theorem IsBlock.append {front back : List Char} (hfront : IsBlock front) (hback : IsBlock back) :
    IsBlock (front ++ back) := by
  obtain ⟨ls, rfl, hls⟩ := hfront
  obtain ⟨more, rfl, hmore⟩ := hback
  refine ⟨ls ++ more, List.flatten_append.symm, fun l hl => ?_⟩
  rcases List.mem_append.1 hl with hl | hl
  · exact hls l hl
  · exact hmore l hl

end Stencil.Text
