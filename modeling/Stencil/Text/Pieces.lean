/-! # Pieces of a text

Cutting a text at a delimiter, at its first delimiter, and behind its line ends.

* `intercalate_split`: joining the pieces with the delimiter restores the text;
* `not_mem_of_mem_split`: no piece holds the delimiter;
* `splitFirst?_eq_some_iff`: a text is cut at its first delimiter and nowhere else;
* `flatten_lines`: the lines, one behind the other, are the text.
-/

namespace Stencil.Text

/-- The pieces between the delimiters; a text without delimiter is one piece. -/
def split (delimiter : Char) : List Char → List (List Char)
  | [] => [[]]
  | c :: cs =>
    if c = delimiter then [] :: split delimiter cs
    else (split delimiter cs).modifyHead (c :: ·)

/-- The texts before and after the first delimiter. -/
def splitFirst? (delimiter : Char) : List Char → Option (List Char × List Char)
  | [] => none
  | c :: cs =>
    if c = delimiter then some ([], cs)
    else (splitFirst? delimiter cs).map fun (before, after) => (c :: before, after)

/-- A text without the delimiter that ends it. -/
def dropTrailing (delimiter : Char) (cs : List Char) : List Char :=
  if cs.getLast? = some delimiter then cs.dropLast else cs

/-- The lines of a text, each with the line feed that ends it. -/
def lines : List Char → List (List Char)
  | [] => []
  | c :: cs =>
    if c = '\n' then [c] :: lines cs
    else match lines cs with
      | [] => [[c]]
      | line :: rest => (c :: line) :: rest

theorem split_ne_nil (delimiter : Char) (cs : List Char) : split delimiter cs ≠ [] := by
  induction cs with
  | nil => simp [split]
  | cons c cs ih =>
    unfold split
    split
    · simp
    · cases h : split delimiter cs with
      | nil => exact absurd h ih
      | cons p ps => simp

/-- The first piece, and the rest of the pieces. -/
theorem exists_split (delimiter : Char) (cs : List Char) :
    ∃ piece pieces, split delimiter cs = piece :: pieces :=
  List.exists_cons_of_ne_nil (split_ne_nil delimiter cs)

/-- Joining the pieces restores the text. -/
theorem intercalate_split (delimiter : Char) (cs : List Char) :
    [delimiter].intercalate (split delimiter cs) = cs := by
  induction cs with
  | nil => simp [split]
  | cons c cs ih =>
    obtain ⟨piece, pieces, h⟩ := exists_split delimiter cs
    rw [h] at ih
    unfold split
    split
    · -- A delimiter opens a new piece.
      rename_i same
      rw [h, List.intercalate_cons_cons, ih, same]
      rfl
    · -- Any other character joins the first piece.
      rw [h, List.modifyHead_cons]
      cases pieces with
      | nil => simpa using ih
      | cons next rest =>
        rw [List.intercalate_cons_cons] at ih ⊢
        simpa using ih

/-- No piece holds the delimiter. -/
theorem not_mem_of_mem_split {delimiter : Char} {cs piece : List Char}
    (h : piece ∈ split delimiter cs) : delimiter ∉ piece := by
  induction cs generalizing piece with
  | nil => simp_all [split]
  | cons c cs ih =>
    obtain ⟨first, rest, pieces⟩ := exists_split delimiter cs
    unfold split at h
    split at h
    · rcases List.mem_cons.1 h with rfl | h
      · exact List.not_mem_nil
      · exact ih h
    · rename_i differs
      rw [pieces, List.modifyHead_cons] at h
      rcases List.mem_cons.1 h with rfl | h
      · have : delimiter ∉ first := ih (by rw [pieces]; exact List.mem_cons_self)
        simpa [this] using fun same => differs same.symm
      · exact ih (by rw [pieces]; exact List.mem_cons_of_mem _ h)

/-- The first piece ends at the first delimiter. -/
theorem split_append_cons {delimiter : Char} {before : List Char} (h : delimiter ∉ before)
    (after : List Char) :
    split delimiter (before ++ delimiter :: after) = before :: split delimiter after := by
  induction before with
  | nil => simp [split]
  | cons c cs ih =>
    rw [List.mem_cons, not_or] at h
    have differs : c ≠ delimiter := fun same => h.1 same.symm
    simp [split, differs, ih h.2]

/-- A text without delimiter is one piece. -/
theorem split_of_not_mem {delimiter : Char} {cs : List Char} (h : delimiter ∉ cs) :
    split delimiter cs = [cs] := by
  induction cs with
  | nil => rfl
  | cons c cs ih =>
    rw [List.mem_cons, not_or] at h
    have differs : c ≠ delimiter := fun same => h.1 same.symm
    simp [split, differs, ih h.2]

theorem splitFirst?_eq_none_iff {delimiter : Char} {cs : List Char} :
    splitFirst? delimiter cs = none ↔ delimiter ∉ cs := by
  induction cs with
  | nil => simp [splitFirst?]
  | cons c cs ih =>
    by_cases same : c = delimiter
    · simp [splitFirst?, same]
    · have differs : delimiter ≠ c := fun h => same h.symm
      simp [splitFirst?, same, differs, ih]

/-- A text is cut at the first delimiter and nowhere else. -/
theorem splitFirst?_eq_some_iff {delimiter : Char} {cs before after : List Char} :
    splitFirst? delimiter cs = some (before, after) ↔
      cs = before ++ delimiter :: after ∧ delimiter ∉ before := by
  induction cs generalizing before with
  | nil => simp [splitFirst?]
  | cons c cs ih =>
    by_cases same : c = delimiter
    · subst same
      cases before with
      | nil => simp [splitFirst?]
      | cons d ds =>
        simp only [splitFirst?, if_pos]
        grind
    · have differs : delimiter ≠ c := fun h => same h.symm
      cases before with
      | nil => simp [splitFirst?, same]
      | cons d ds =>
        simp [splitFirst?, same, ih]
        constructor
        · rintro ⟨⟨rfl, h⟩, rfl⟩; exact ⟨⟨rfl, rfl⟩, differs, h⟩
        · rintro ⟨⟨rfl, rfl⟩, -, h⟩; exact ⟨⟨rfl, h⟩, rfl⟩

/-- Lines lose nothing. -/
theorem flatten_lines (cs : List Char) : (lines cs).flatten = cs := by
  induction cs with
  | nil => rfl
  | cons c cs ih =>
    unfold lines
    split
    · simp [ih]
    · split
      · rename_i h
        simp [h] at ih
        simp [← ih]
      · rename_i h
        simp [h] at ih
        simp [← ih]

end Stencil.Text
