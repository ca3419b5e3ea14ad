import Stencil.Proofs.Kernel.Grammar

/-!
# The first defect of a matrix

A row can be wrong in two ways: it has another number of elements than the first row, or one of its
elements is not a finite number.  The reader counts the elements of a row before it reads them, so
the number is what counts where a row is wrong in both ways, and it stops at the first row that is
wrong at all.

Both loops of the reader stop at the first place of a list where something is lacking, and say which
place that is.  `FirstWithout` is this notion, and `firstWithout_cons_iff` is the step of both
inductions.

## Key results

- `exists_firstWithout_iff`: there is a first place exactly when the property is lacking somewhere
- `readElements_eq_error_iff` / `readRow_eq_error_iff` / `readRows_eq_error_iff`: what the loops over
  columns and rows report
- `exists_defect_iff` / `Defect.unique`: a row has a defect when it is not sound, and no other one
- `parse_eq_error_iff` / `exists_parse_eq_ok_iff`: why a text is refused, and when it is read
- `parse_outcomes`: every text is read as a kernel, or its first defect is reported
-/

namespace Stencil.Kernel

variable {α : Type} {P : α → Prop}

/-! ## The first place that lacks a property -/

/-- The first element of a list without a property, and its index. -/
structure FirstWithout (P : α → Prop) (l : List α) (i : Nat) (a : α) : Prop where
  found : l[i]? = some a
  lacks : ¬ P a
  before : ∀ j < i, ∀ b, l[j]? = some b → P b

/-- The first place of a list is its head, or the first place behind a head with the property. -/
theorem firstWithout_cons_iff {a b : α} {l : List α} {i : Nat} :
    FirstWithout P (a :: l) i b ↔
      i = 0 ∧ b = a ∧ ¬ P a ∨ ∃ j, i = j + 1 ∧ P a ∧ FirstWithout P l j b := by
  constructor
  · rintro ⟨hfound, hlacks, hbefore⟩
    cases i with
    | zero =>
      obtain rfl := Option.some.inj hfound
      exact Or.inl ⟨rfl, rfl, hlacks⟩
    | succ i =>
      refine Or.inr ⟨i, rfl, hbefore 0 (Nat.succ_pos i) a rfl, hfound, hlacks, fun j hj => ?_⟩
      exact hbefore (j + 1) (Nat.succ_lt_succ hj)
  · rintro (⟨rfl, rfl, hlacks⟩ | ⟨i, rfl, hhead, hfound, hlacks, hbefore⟩)
    · exact ⟨rfl, hlacks, fun j hj => absurd hj (Nat.not_lt_zero j)⟩
    · refine ⟨hfound, hlacks, fun j hj c hc => ?_⟩
      cases j with
      | zero => exact Option.some.inj hc ▸ hhead
      | succ j => exact hbefore j (Nat.lt_of_succ_lt_succ hj) c hc

/-- A list without elements has no first place. -/
theorem not_firstWithout_nil {i : Nat} {a : α} : ¬ FirstWithout P [] i a :=
  fun h => absurd h.found (by simp)

/-- There is a first place exactly when some element lacks the property. -/
theorem exists_firstWithout_iff {l : List α} :
    (∃ i a, FirstWithout P l i a) ↔ ¬ ∀ a ∈ l, P a := by
  constructor
  · rintro ⟨i, a, hfirst⟩ hall
    exact hfirst.lacks (hall a (List.mem_of_getElem? hfirst.found))
  · intro hlacks
    induction l with
    | nil => exact absurd (by simp) hlacks
    | cons head rest ih =>
      by_cases hhead : P head
      · have hrest : ¬ ∀ a ∈ rest, P a :=
          fun hall => hlacks (List.forall_mem_cons.2 ⟨hhead, hall⟩)
        obtain ⟨i, a, hfirst⟩ := ih hrest
        exact ⟨i + 1, a, firstWithout_cons_iff.2 (Or.inr ⟨i, rfl, hhead, hfirst⟩)⟩
      · exact ⟨0, head, firstWithout_cons_iff.2 (Or.inl ⟨rfl, rfl, hhead⟩)⟩

/-- The first place is the only one. -/
theorem FirstWithout.unique {l : List α} {i j : Nat} {a b : α} (h : FirstWithout P l i a)
    (h' : FirstWithout P l j b) : i = j ∧ a = b := by
  have hindex : i = j := by
    -- The earlier of two different places would have the property
    rcases Nat.lt_trichotomy i j with hlt | heq | hgt
    · exact absurd (h'.before i hlt a h.found) h.lacks
    · exact heq
    · exact absurd (h.before j hgt b h'.found) h'.lacks
  subst hindex
  exact ⟨rfl, Option.some.inj (h.found.symm.trans h'.found)⟩

/-! ## Defects -/

/-- A token is a finite number, the blanks around it apart. -/
def IsNumber (token : List Char) : Prop := ∃ weight, Denotes token weight

/-- A row has the number of elements that is asked of it, and each of them is a number. -/
def IsSound (width : Nat) (line : List Char) : Prop :=
  (elements line).length = width ∧ ∀ token ∈ elements line, IsNumber token

/-- What is wrong with a row.  The elements are of interest only if their number is right. -/
inductive Defect (width row : Nat) (line : List Char) : Error → Prop where
  /-- The row has another number of elements. -/
  | ragged (hlength : (elements line).length ≠ width) :
      Defect width row line (.raggedRow row (elements line).length width)
  /-- The element is the first of the row that is not a number. -/
  | noNumber {column : Nat} {token : List Char} (hlength : (elements line).length = width)
      (hfirst : FirstWithout IsNumber (elements line) column token) :
      Defect width row line (.notANumber row column (String.ofList token))

/-- The rows that are not sound are those with a defect. -/
theorem exists_defect_iff {width : Nat} (row : Nat) {line : List Char} :
    (∃ e, Defect width row line e) ↔ ¬ IsSound width line := by
  constructor
  · rintro ⟨_, hlength | ⟨-, hfirst⟩⟩ hsound
    · exact hlength hsound.1
    · exact exists_firstWithout_iff.1 ⟨_, _, hfirst⟩ hsound.2
  · intro hsound
    by_cases hlength : (elements line).length = width
    · obtain ⟨column, token, hfirst⟩ :=
        exists_firstWithout_iff.2 fun hnumbers => hsound ⟨hlength, hnumbers⟩
      exact ⟨_, .noNumber hlength hfirst⟩
    · exact ⟨_, .ragged hlength⟩

/-- A row has no more than one defect. -/
theorem Defect.unique {width row : Nat} {line : List Char} {e e' : Error}
    (h : Defect width row line e) (h' : Defect width row line e') : e = e' := by
  cases h with
  | ragged hlength =>
    cases h' with
    | ragged => rfl
    | noNumber hlength' => exact absurd hlength' hlength
  | noNumber hlength hfirst =>
    cases h' with
    | ragged hlength' => exact absurd hlength hlength'
    | noNumber _ hfirst' =>
      obtain ⟨rfl, rfl⟩ := hfirst.unique hfirst'
      rfl

/-! ## What the loops report -/

theorem readElement_eq_error_iff {row column : Nat} {token : List Char} {e : Error} :
    readElement row column token = .error e ↔
      ¬ IsNumber token ∧ e = .notANumber row column (String.ofList token) := by
  unfold readElement IsNumber Denotes
  cases Numeral.readSingle? (Text.trim token) with
  | some weight => simp
  | none => simp [eq_comm]

/-- The loop over columns stops at the first element that is not a number. -/
theorem readElements_eq_error_iff {row column : Nat} {tokens : List (List Char)} {e : Error} :
    readElements row column tokens = .error e ↔
      ∃ c token, FirstWithout IsNumber tokens c token ∧
        e = .notANumber row (column + c) (String.ofList token) := by
  induction tokens generalizing column with
  | nil => simp [readElements, not_firstWithout_nil]
  | cons token rest ih =>
    simp only [readElements, bind_eq_error_iff, readElement_eq_error_iff, readElement_eq_ok_iff, ih,
      firstWithout_cons_iff]
    constructor
    · rintro (⟨hnumber, rfl⟩ | ⟨weight, hweight, ⟨c, other, hfirst, rfl⟩ | ⟨_, -, hpure⟩⟩)
      · exact ⟨0, token, Or.inl ⟨rfl, rfl, hnumber⟩, rfl⟩
      · refine ⟨c + 1, other, Or.inr ⟨c, rfl, ⟨weight, hweight⟩, hfirst⟩, ?_⟩
        rw [Nat.add_assoc, Nat.add_comm 1 c]
      · exact absurd hpure (by simp [pure, Except.pure])
    · rintro ⟨c, other, ⟨rfl, rfl, hnumber⟩ | ⟨c, rfl, ⟨weight, hweight⟩, hfirst⟩, rfl⟩
      · exact Or.inl ⟨hnumber, rfl⟩
      · refine Or.inr ⟨weight, hweight, Or.inl ⟨c, other, hfirst, ?_⟩⟩
        rw [Nat.add_assoc, Nat.add_comm 1 c]

/-- Of a row its defect is reported. -/
theorem readRow_eq_error_iff {width row : Nat} {line : List Char} {e : Error} :
    readRow width row line = .error e ↔ Defect width row line e := by
  unfold readRow
  by_cases hlength : (elements line).length = width
  · rw [if_pos hlength, readElements_eq_error_iff]
    simp only [Nat.zero_add]
    constructor
    · rintro ⟨column, token, hfirst, rfl⟩
      exact .noNumber hlength hfirst
    · intro hdefect
      cases hdefect with
      | ragged hlength' => exact absurd hlength hlength'
      | noNumber _ hfirst => exact ⟨_, _, hfirst, rfl⟩
  · rw [if_neg hlength, Except.error.injEq]
    constructor
    · rintro rfl
      exact .ragged hlength
    · exact (Defect.ragged hlength).unique

/-- A row is read exactly when it is sound. -/
theorem exists_readRow_eq_ok_iff {width row : Nat} {line : List Char} :
    (∃ weights, readRow width row line = .ok weights) ↔ IsSound width line := by
  rw [← not_iff_not, ← exists_defect_iff row]
  simp only [← readRow_eq_error_iff]
  cases readRow width row line with
  | error e => simp
  | ok weights => simp

/-- The loop over rows stops at the first row that is not sound. -/
theorem readRows_eq_error_iff {width row : Nat} {rows : List (List Char)} {e : Error} :
    readRows width row rows = .error e ↔
      ∃ r line, FirstWithout (IsSound width) rows r line ∧ Defect width (row + r) line e := by
  induction rows generalizing row with
  | nil => simp [readRows, not_firstWithout_nil]
  | cons line rest ih =>
    simp only [readRows, bind_eq_error_iff, readRow_eq_error_iff, ih, firstWithout_cons_iff]
    constructor
    · rintro (hdefect | ⟨above, habove, ⟨r, other, hfirst, hdefect⟩ | ⟨_, -, hpure⟩⟩)
      · exact ⟨0, line, Or.inl ⟨rfl, rfl, (exists_defect_iff _).1 ⟨e, hdefect⟩⟩, hdefect⟩
      · refine ⟨r + 1, other, Or.inr ⟨r, rfl, exists_readRow_eq_ok_iff.1 ⟨above, habove⟩, hfirst⟩, ?_⟩
        rwa [Nat.add_comm r 1, ← Nat.add_assoc]
      · exact absurd hpure (by simp [pure, Except.pure])
    · rintro ⟨r, other, ⟨rfl, rfl, -⟩ | ⟨r, rfl, hsound, hfirst⟩, hdefect⟩
      · exact Or.inl hdefect
      · obtain ⟨above, habove⟩ := exists_readRow_eq_ok_iff.2 hsound
        refine Or.inr ⟨above, habove, Or.inl ⟨r, other, hfirst, ?_⟩⟩
        rwa [Nat.add_assoc, Nat.add_comm 1 r]

/-- The rows are read exactly when all of them are sound. -/
theorem exists_readRows_eq_ok_iff {width r : Nat} {rows : List (List Char)} :
    (∃ weights, readRows width r rows = .ok weights) ↔ ∀ line ∈ rows, IsSound width line := by
  have hfails : (∃ e, readRows width r rows = .error e) ↔ ¬ ∀ line ∈ rows, IsSound width line := by
    rw [← exists_firstWithout_iff]
    simp only [readRows_eq_error_iff]
    constructor
    · rintro ⟨e, i, line, hfirst, -⟩
      exact ⟨i, line, hfirst⟩
    · rintro ⟨i, line, hfirst⟩
      obtain ⟨e, hdefect⟩ := (exists_defect_iff (r + i)).2 hfirst.lacks
      exact ⟨e, i, line, hfirst, hdefect⟩
  rw [← not_iff_not, ← hfails]
  cases readRows width r rows with
  | error e => simp
  | ok weights => simp

/-! ## The outcomes of reading -/

/-- There is no row, or the rows have no elements. -/
def Blank (rows : List (List Char)) : Prop := rows = [] ∨ ∀ line ∈ rows, elements line = []

/-- Sound rows ask for no elements exactly when there are none. -/
theorem widthOf_eq_zero_iff {rows : List (List Char)}
    (h : ∀ line ∈ rows, IsSound (widthOf rows) line) : widthOf rows = 0 ↔ Blank rows := by
  constructor
  · intro hwidth
    refine Or.inr fun line hline => List.eq_nil_of_length_eq_zero ?_
    rw [(h line hline).1, hwidth]
  · rintro (rfl | hnone)
    · rfl
    · cases rows with
      | nil => rfl
      | cons first others =>
        rw [widthOf, hnone first List.mem_cons_self, List.length_nil]

/-- Reading is reading the rows, and a look at the width. -/
private theorem parse_eq (s : String) :
    parse s = readRows (widthOf (fields rowDelimiter s.toList)) 0 (fields rowDelimiter s.toList) >>=
      fun weights => if widthOf (fields rowDelimiter s.toList) = 0 then .error .empty
        else .ok ⟨weights, widthOf (fields rowDelimiter s.toList),
          (fields rowDelimiter s.toList).length⟩ := rfl

/-- A text is refused for the defect of its first row that is not sound, or because it has no
    elements. -/
theorem parse_eq_error_iff {s : String} {rows : List (List Char)}
    (hrows : fields rowDelimiter s.toList = rows) {e : Error} :
    parse s = .error e ↔
      (∃ r line, FirstWithout (IsSound (widthOf rows)) rows r line ∧ Defect (widthOf rows) r line e) ∨
        (∀ line ∈ rows, IsSound (widthOf rows) line) ∧ Blank rows ∧ e = .empty := by
  rw [parse_eq, hrows, bind_eq_error_iff, readRows_eq_error_iff]
  simp only [Nat.zero_add]
  refine or_congr_right ⟨?_, ?_⟩
  · rintro ⟨weights, hweights, hempty⟩
    have hsound := exists_readRows_eq_ok_iff.1 ⟨weights, hweights⟩
    by_cases hwidth : widthOf rows = 0
    · rw [if_pos hwidth, Except.error.injEq] at hempty
      exact ⟨hsound, (widthOf_eq_zero_iff hsound).1 hwidth, hempty.symm⟩
    · rw [if_neg hwidth] at hempty
      exact absurd hempty (by simp)
  · rintro ⟨hsound, hblank, rfl⟩
    obtain ⟨weights, hweights⟩ := (exists_readRows_eq_ok_iff (r := 0)).2 hsound
    exact ⟨weights, hweights, if_pos ((widthOf_eq_zero_iff hsound).2 hblank)⟩

/-- A text is read when its rows are sound and have elements. -/
theorem exists_parse_eq_ok_iff {s : String} {rows : List (List Char)}
    (hrows : fields rowDelimiter s.toList = rows) :
    (∃ k, parse s = .ok k) ↔
      (∀ line ∈ rows, IsSound (widthOf rows) line) ∧ ¬ Blank rows := by
  simp only [parse_eq, hrows, bind_eq_ok_iff]
  constructor
  · rintro ⟨k, weights, hweights, hfull⟩
    have hsound := exists_readRows_eq_ok_iff.1 ⟨weights, hweights⟩
    refine ⟨hsound, fun hblank => ?_⟩
    rw [if_pos ((widthOf_eq_zero_iff hsound).2 hblank)] at hfull
    exact absurd hfull (by simp)
  · rintro ⟨hsound, hblank⟩
    obtain ⟨weights, hweights⟩ := (exists_readRows_eq_ok_iff (r := 0)).2 hsound
    have hwidth : widthOf rows ≠ 0 := mt (widthOf_eq_zero_iff hsound).1 hblank
    exact ⟨_, weights, hweights, if_neg hwidth⟩

/-- Every text is read as a kernel or refused.  What is reported is the one defect of the first row
    that is not sound; where all rows are, a text without elements is refused as empty, and any
    other one is read. -/
theorem parse_outcomes (s : String) :
    let rows := fields rowDelimiter s.toList
    let width := widthOf rows
    (∀ e, parse s = .error e ↔
      (∃ r line, FirstWithout (IsSound width) rows r line ∧ Defect width r line e) ∨
        (∀ line ∈ rows, IsSound width line) ∧ Blank rows ∧ e = .empty) ∧
    ((∃ k, parse s = .ok k) ↔ (∀ line ∈ rows, IsSound width line) ∧ ¬ Blank rows) ∧
    ∀ r line, FirstWithout (IsSound width) rows r line → ∃! e, Defect width r line e := by
  intro rows width
  refine ⟨fun e => parse_eq_error_iff rfl, exists_parse_eq_ok_iff rfl, fun r line hfirst => ?_⟩
  -- The first row that is not sound has a defect, and it is the only one
  obtain ⟨e, hdefect⟩ := (exists_defect_iff r).2 hfirst.lacks
  exact ⟨e, hdefect, fun e' hdefect' => hdefect'.unique hdefect⟩

end Stencil.Kernel
