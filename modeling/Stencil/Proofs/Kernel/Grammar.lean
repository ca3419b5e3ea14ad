import Mathlib.Data.List.Forall2
import Stencil.Kernel.Matrix
import Stencil.Proofs.Outcome
import Stencil.Proofs.Text.Joined

/-!
# The grammar of matrix notation

`Spells k cs` says, without the reader, that a text is a kernel in matrix notation: there is a
table of tokens that read as the weights, each row is its tokens joined by `,`, the text is the
rows joined by `;`, and one delimiter may be left over behind each row and behind the text.

The reader is first reduced to the flat list of its tokens (`parseChars_eq_ok_iff`): the rows have
the same number of elements, and the elements of all rows, in reading order, denote the weights.
What remains is that `fields` inverts joining, in both directions.

## Key results

- `delimited_fields` / `fields_of_delimited`: `fields` gives back the pieces that were joined
- `readElements_eq_ok_iff` / `readRows_eq_ok_iff`: what the loops over columns and rows accept
- `spells_of_parseChars` / `parseChars_of_spells`: what is read is spelled by its text, and back
- `parse_eq_ok_iff`: a text is read as a kernel exactly when it spells it
- `weights_ne_nil_of_parseChars` / `isFinite_of_parseChars`: what is read has weights, all finite
- `length_weights_le`: a kernel has no more weights than its text has characters
-/

namespace Stencil.Kernel

open Text

/-! ## Joined pieces -/

/-- A text is its pieces joined by a delimiter, with at most one more delimiter at its end. -/
def Delimited (delimiter : Char) (pieces : List (List Char)) (cs : List Char) : Prop :=
  cs = [delimiter].intercalate pieces ∨ cs = [delimiter].intercalate pieces ++ [delimiter]

/-- A text without delimiter at its end keeps its last character. -/
private theorem dropTrailing_of_getLast? {delimiter : Char} {cs : List Char}
    (h : cs.getLast? ≠ some delimiter) : dropTrailing delimiter cs = cs := by
  rw [dropTrailing, if_neg h]

/-- The delimiter that ends a text is dropped. -/
private theorem dropTrailing_concat (delimiter : Char) (cs : List Char) :
    dropTrailing delimiter (cs ++ [delimiter]) = cs := by
  simp [dropTrailing]

/-- A text is what is left of it, with or without a delimiter behind. -/
private theorem eq_dropTrailing (delimiter : Char) (cs : List Char) :
    cs = dropTrailing delimiter cs ∨ cs = dropTrailing delimiter cs ++ [delimiter] := by
  unfold dropTrailing
  split
  · rename_i h
    obtain ⟨front, rfl⟩ := List.getLast?_eq_some_iff.1 h
    right
    rw [List.dropLast_concat]
  · exact Or.inl rfl

/-- A text that has fields is its fields joined. -/
theorem delimited_fields {delimiter : Char} {cs : List Char} (h : fields delimiter cs ≠ []) :
    Delimited delimiter (fields delimiter cs) cs := by
  unfold Delimited
  unfold fields at h ⊢
  split
  · rename_i nothing
    simp [nothing] at h
  · rw [intercalate_split]
    exact eq_dropTrailing delimiter cs

/-- The last character of a joined text is the last character of its last piece. -/
private theorem getLast?_intercalate {delimiter : Char} {pieces : List (List Char)}
    (hne : pieces ≠ []) (hfree : ∀ piece ∈ pieces, delimiter ∉ piece)
    (hfull : ∀ piece ∈ pieces, piece ≠ []) :
    ([delimiter].intercalate pieces).getLast? ≠ some delimiter ∧
      [delimiter].intercalate pieces ≠ [] := by
  induction pieces with
  | nil => exact absurd rfl hne
  | cons piece rest ih =>
    have hpiece : piece ≠ [] := hfull piece List.mem_cons_self
    cases rest with
    | nil =>
      simp only [List.intercalate_singleton]
      refine ⟨fun hlast => ?_, hpiece⟩
      exact hfree piece List.mem_cons_self (List.mem_of_getLast? hlast)
    | cons next more =>
      -- The rest is joined behind a delimiter, and its last character is the last of all
      obtain ⟨hlast, hnonempty⟩ := ih (List.cons_ne_nil _ _)
        (fun p hp => hfree p (List.mem_cons_of_mem _ hp))
        (fun p hp => hfull p (List.mem_cons_of_mem _ hp))
      rw [List.intercalate_cons_cons, List.getLast?_append_of_ne_nil _ hnonempty]
      exact ⟨hlast, by simp⟩

/-- The fields of a joined text are its pieces, as none of them is empty or holds a delimiter.
    The empty piece has to be excluded: `"1,"` is one piece with a delimiter left over. -/
theorem fields_of_delimited {delimiter : Char} {pieces : List (List Char)} {cs : List Char}
    (hne : pieces ≠ []) (hfree : ∀ piece ∈ pieces, delimiter ∉ piece)
    (hfull : ∀ piece ∈ pieces, piece ≠ []) (h : Delimited delimiter pieces cs) :
    fields delimiter cs = pieces := by
  obtain ⟨hlast, hnonempty⟩ := getLast?_intercalate hne hfree hfull
  -- Whichever of the two forms the text has, dropping leaves the joined pieces
  have hdrop : dropTrailing delimiter cs = [delimiter].intercalate pieces := by
    rcases h with rfl | rfl
    · exact dropTrailing_of_getLast? hlast
    · exact dropTrailing_concat delimiter _
  unfold fields
  rw [hdrop]
  split
  · rename_i nothing
    exact absurd nothing hnonempty
  · exact split_intercalate hne hfree

/-- A field holds no delimiter. -/
theorem not_mem_of_mem_fields {delimiter : Char} {cs piece : List Char}
    (h : piece ∈ fields delimiter cs) : delimiter ∉ piece := by
  unfold fields at h
  split at h
  · exact absurd h List.not_mem_nil
  · exact not_mem_of_mem_split h

/-- What stands in a piece stands in the joined text. -/
private theorem mem_of_mem_piece {delimiter c : Char} {pieces : List (List Char)}
    {cs piece : List Char} (h : Delimited delimiter pieces cs) (hpiece : piece ∈ pieces)
    (hc : c ∈ piece) : c ∈ cs := by
  have hjoined : c ∈ [delimiter].intercalate pieces := mem_intercalate_of_mem hpiece hc
  rcases h with rfl | rfl
  · exact hjoined
  · exact List.mem_append_left _ hjoined

/-- A joined text holds nothing but its pieces and delimiters. -/
private theorem exists_mem_piece {delimiter c : Char} {pieces : List (List Char)} {cs : List Char}
    (h : Delimited delimiter pieces cs) (hc : c ∈ cs) (hother : c ≠ delimiter) :
    ∃ piece ∈ pieces, c ∈ piece := by
  have hjoined : c ∈ [delimiter].intercalate pieces := by
    rcases h with rfl | rfl
    · exact hc
    · simpa [hother] using hc
  rcases mem_or_exists_of_mem_intercalate hjoined with hdelimiter | hexists
  · exact absurd (List.mem_singleton.1 hdelimiter) hother
  · exact hexists

/-! ## What the loops accept -/

/-- A token reads as a weight, the blanks around it apart. -/
def Denotes (token : List Char) (weight : Float32) : Prop :=
  Numeral.readSingle? (trim token) = some weight

/-- Only finite numbers are read. -/
theorem Denotes.isFinite {token : List Char} {weight : Float32} (h : Denotes token weight) :
    weight.isFinite := by
  unfold Denotes Numeral.readSingle? at h
  split at h
  · dsimp only at h
    split at h
    all_goals
      rw [Option.ite_none_right_eq_some, Option.some.injEq] at h
      exact h.2 ▸ h.1
  · exact absurd h (by simp)

/-- A token that reads as a weight is not empty. -/
theorem Denotes.ne_nil {token : List Char} {weight : Float32} (h : Denotes token weight) :
    token ≠ [] := by
  rintro rfl
  have hnone : Numeral.readSingle? (trim []) = none := by decide
  rw [Denotes, hnone] at h
  exact absurd h (by simp)

theorem readElement_eq_ok_iff {row column : Nat} {token : List Char} {weight : Float32} :
    readElement row column token = .ok weight ↔ Denotes token weight := by
  unfold readElement Denotes
  cases Numeral.readSingle? (trim token) <;> simp

/-- The elements of a row are read one by one. -/
theorem readElements_eq_ok_iff {row column : Nat} {tokens : List (List Char)}
    {weights : List Float32} :
    readElements row column tokens = .ok weights ↔ List.Forall₂ Denotes tokens weights := by
  induction tokens generalizing column weights with
  | nil => rw [readElements, List.forall₂_nil_left_iff, Except.ok.injEq, eq_comm]
  | cons token rest ih =>
    -- Both sides ask for a weight of the first token and weights of the rest
    simp only [readElements, bind_eq_ok_iff, pure_eq_ok_iff, readElement_eq_ok_iff, ih,
      List.forall₂_cons_left_iff]
    constructor
    · rintro ⟨weight, hweight, more, hmore, rfl⟩
      exact ⟨weight, more, hweight, hmore, rfl⟩
    · rintro ⟨weight, more, hweight, hmore, rfl⟩
      exact ⟨weight, hweight, more, hmore, rfl⟩

/-- A row is read when it has the right number of elements and each of them is a number. -/
theorem readRow_eq_ok_iff {width row : Nat} {line : List Char} {weights : List Float32} :
    readRow width row line = .ok weights ↔
      (elements line).length = width ∧ List.Forall₂ Denotes (elements line) weights := by
  unfold readRow
  by_cases hlength : (elements line).length = width
  · simp [readElements_eq_ok_iff, hlength]
  · simp [hlength]

/-- A list of tokens in two parts denotes the weights of the parts, one behind the other. -/
private theorem forall₂_append_left_iff {tokens more : List (List Char)} {weights : List Float32} :
    List.Forall₂ Denotes (tokens ++ more) weights ↔
      ∃ above below, List.Forall₂ Denotes tokens above ∧ List.Forall₂ Denotes more below ∧
        above ++ below = weights := by
  constructor
  · intro h
    -- The weights are cut where the tokens are
    have habove := (List.forall₂_take_append _ _ _ h.flip).flip
    have hbelow := (List.forall₂_drop_append _ _ _ h.flip).flip
    exact ⟨_, _, habove, hbelow, List.take_append_drop _ _⟩
  · rintro ⟨above, below, habove, hbelow, rfl⟩
    exact List.rel_append habove hbelow

/-- The rows are read when all of them have the right number of elements and the elements, row
    after row, are the weights. -/
theorem readRows_eq_ok_iff {width row : Nat} {rows : List (List Char)} {weights : List Float32} :
    readRows width row rows = .ok weights ↔
      (∀ line ∈ rows, (elements line).length = width) ∧
        List.Forall₂ Denotes (rows.flatMap elements) weights := by
  induction rows generalizing row weights with
  | nil => simp [readRows, eq_comm]
  | cons line rest ih =>
    simp only [readRows, bind_eq_ok_iff, pure_eq_ok_iff, readRow_eq_ok_iff, ih,
      List.forall_mem_cons, List.flatMap_cons, forall₂_append_left_iff]
    constructor
    · rintro ⟨above, ⟨hlength, habove⟩, below, ⟨hlengths, hbelow⟩, rfl⟩
      exact ⟨⟨hlength, hlengths⟩, above, below, habove, hbelow, rfl⟩
    · rintro ⟨⟨hlength, hlengths⟩, above, below, habove, hbelow, rfl⟩
      exact ⟨above, ⟨hlength, habove⟩, below, ⟨hlengths, hbelow⟩, rfl⟩

/-- What a text is read as: its rows have the same number of elements, at least one, and the
    elements denote the weights. -/
theorem parseChars_eq_ok_iff {cs : List Char} {k : Kernel} :
    parseChars cs = .ok k ↔
      0 < k.width ∧ (fields rowDelimiter cs).length = k.height ∧ fields rowDelimiter cs ≠ [] ∧
        (∀ line ∈ fields rowDelimiter cs, (elements line).length = k.width) ∧
        List.Forall₂ Denotes ((fields rowDelimiter cs).flatMap elements) k.weights := by
  unfold parseChars
  generalize fields rowDelimiter cs = rows
  simp only [bind_eq_ok_iff, readRows_eq_ok_iff]
  constructor
  · rintro ⟨weights, ⟨hlengths, hdenotes⟩, h⟩
    split at h
    · exact absurd h (by simp)
    · rename_i hwidth
      obtain rfl : _ = k := Except.ok.inj h
      refine ⟨Nat.pos_of_ne_zero hwidth, rfl, ?_, hlengths, hdenotes⟩
      -- Without rows the width would be zero
      rintro rfl
      exact hwidth rfl
  · rintro ⟨hwidth, hheight, hne, hlengths, hdenotes⟩
    obtain ⟨first, others, rfl⟩ := List.exists_cons_of_ne_nil hne
    have hfirst : widthOf (first :: others) = k.width := hlengths first List.mem_cons_self
    refine ⟨k.weights, ⟨by rwa [hfirst], hdenotes⟩, ?_⟩
    rw [hfirst, if_neg (Nat.ne_of_gt hwidth), hheight]

/-! ## The grammar -/

/-- A text spells a kernel.  `token r c` is the text of the weight in row `r` and column `c`, and
    `row r` is the text of a row. -/
structure Spells (k : Kernel) (cs : List Char) : Prop where
  wide : 1 ≤ k.width
  high : 1 ≤ k.height
  filled : k.weights.length = k.width * k.height
  written : ∃ (row : Nat → List Char) (token : Nat → Nat → List Char),
    Delimited rowDelimiter ((List.range k.height).map row) cs ∧
    (∀ r < k.height, Delimited elementDelimiter ((List.range k.width).map (token r)) (row r)) ∧
    ∀ r < k.height, ∀ c < k.width, elementDelimiter ∉ token r c ∧ rowDelimiter ∉ token r c ∧
      ∃ weight, k.weights[r * k.width + c]? = some weight ∧ weight.isFinite ∧
        Denotes (token r c) weight

/-- In rows of equal width the element in row `r` and column `c` is the one with index
    `r * width + c`. -/
private theorem getElem?_flatMap_elements {width r c : Nat} {rows : List (List Char)}
    (hlengths : ∀ line ∈ rows, (elements line).length = width) (hc : c < width) :
    (rows.flatMap elements)[r * width + c]? = (rows[r]?).bind fun line => (elements line)[c]? := by
  induction rows generalizing r with
  | nil => simp
  | cons line rest ih =>
    have hline : (elements line).length = width := hlengths line List.mem_cons_self
    rw [List.flatMap_cons]
    cases r with
    | zero =>
      rw [Nat.zero_mul, Nat.zero_add, List.getElem?_append_left (by omega)]
      rfl
    | succ r =>
      -- The first row is skipped, and with it `width` indices
      have hindex : (r + 1) * width + c = (elements line).length + (r * width + c) := by
        rw [Nat.succ_mul, hline]
        omega
      rw [hindex, List.getElem?_append_right (Nat.le_add_right _ _), Nat.add_sub_cancel_left,
        ih fun l hl => hlengths l (List.mem_cons_of_mem _ hl)]
      rfl

/-- Rows of equal width hold `width` elements each. -/
private theorem length_flatMap_elements {width : Nat} {rows : List (List Char)}
    (hlengths : ∀ line ∈ rows, (elements line).length = width) :
    (rows.flatMap elements).length = rows.length * width := by
  induction rows with
  | nil => simp
  | cons line rest ih =>
    rw [List.flatMap_cons, List.length_append, hlengths line List.mem_cons_self,
      ih fun l hl => hlengths l (List.mem_cons_of_mem _ hl), List.length_cons, Nat.succ_mul,
      Nat.add_comm]

/-- A list is read off its indices. -/
private theorem map_getD_range {pieces : List (List Char)} {n : Nat} (h : pieces.length = n) :
    (List.range n).map (fun i => pieces.getD i []) = pieces := by
  subst h
  refine List.ext_getElem (by simp) fun i _ hi => ?_
  simp [hi]

/-- A token at an index denotes the weight at that index. -/
private theorem exists_weight {tokens : List (List Char)} {weights : List Float32} {i : Nat}
    {token : List Char} (h : List.Forall₂ Denotes tokens weights) (hi : tokens[i]? = some token) :
    ∃ weight, weights[i]? = some weight ∧ Denotes token weight := by
  induction h generalizing i with
  | nil => simp at hi
  | cons hfirst _ ih =>
    cases i with
    | zero =>
      obtain rfl := Option.some.inj hi
      exact ⟨_, rfl, hfirst⟩
    | succ i => exact ih hi

/-- What is read is spelled by its text: the tokens are the fields that were read. -/
theorem spells_of_parseChars {cs : List Char} {k : Kernel} (h : parseChars cs = .ok k) :
    Spells k cs := by
  obtain ⟨hwidth, hheight, hne, hlengths, hdenotes⟩ := parseChars_eq_ok_iff.1 h
  have hjoined := delimited_fields hne
  have hfree : ∀ line ∈ fields rowDelimiter cs, rowDelimiter ∉ line :=
    fun line hline => not_mem_of_mem_fields hline
  generalize fields rowDelimiter cs = rows at *
  -- The rows are full, so there are as many weights as cells
  have hcount : k.weights.length = k.width * k.height := by
    rw [← hdenotes.length_eq, length_flatMap_elements hlengths, hheight, Nat.mul_comm]
  have hline : ∀ r < k.height, ∃ line ∈ rows, rows[r]? = some line ∧ rows.getD r [] = line := by
    intro r hr
    have hr' : r < rows.length := hheight.symm ▸ hr
    exact ⟨rows[r], List.getElem_mem hr', List.getElem?_eq_getElem hr', by simp [hr']⟩
  refine ⟨hwidth, ?_, hcount, fun r => rows.getD r [],
    fun r c => (elements (rows.getD r [])).getD c [], ?_, ?_, ?_⟩
  · exact hheight ▸ List.length_pos_iff.2 hne
  · rwa [map_getD_range hheight]
  · -- Each row is its elements joined
    intro r hr
    obtain ⟨line, hmem, -, hgetD⟩ := hline r hr
    have hlength := hlengths line hmem
    dsimp only
    rw [hgetD, map_getD_range hlength]
    refine delimited_fields fun hnil => ?_
    rw [elements, hnil] at hlength
    exact Nat.ne_of_gt hwidth hlength.symm
  · -- Each element denotes the weight at its index
    intro r hr c hc
    obtain ⟨line, hmem, hget, hgetD⟩ := hline r hr
    have hlength := hlengths line hmem
    have hc' : c < (elements line).length := hlength.symm ▸ hc
    have htoken : (elements line)[c]? = some ((elements line).getD c []) := by simp [hc']
    have hin : (elements line).getD c [] ∈ elements line := List.mem_of_getElem? htoken
    dsimp only
    rw [hgetD]
    refine ⟨not_mem_of_mem_fields hin, fun hrow => hfree line hmem ?_, ?_⟩
    · exact mem_of_mem_piece (delimited_fields (List.ne_nil_of_mem hin)) hin hrow
    · have hindex := getElem?_flatMap_elements (r := r) hlengths hc
      rw [hget, Option.bind_some, htoken] at hindex
      obtain ⟨weight, hweight, hreads⟩ := exists_weight hdenotes hindex
      exact ⟨weight, hweight, hreads.isFinite, hreads⟩

/-- A list over a range with an index is not empty. -/
private theorem map_range_ne_nil {n : Nat} (h : 1 ≤ n) (f : Nat → List Char) :
    (List.range n).map f ≠ [] := by
  rw [ne_eq, List.map_eq_nil_iff, List.range_eq_nil]
  omega

/-- A row that is its tokens joined has the tokens as its elements. -/
private theorem elements_of_delimited {width : Nat} {token : Nat → List Char} {row : List Char}
    (hwide : 1 ≤ width) (hrow : Delimited elementDelimiter ((List.range width).map token) row)
    (htokens : ∀ c < width, elementDelimiter ∉ token c ∧ token c ≠ []) :
    elements row = (List.range width).map token := by
  refine fields_of_delimited (map_range_ne_nil hwide token) ?_ ?_ hrow
  · intro piece hpiece
    obtain ⟨c, hc, rfl⟩ := List.mem_map.1 hpiece
    exact (htokens c (List.mem_range.1 hc)).1
  · intro piece hpiece
    obtain ⟨c, hc, rfl⟩ := List.mem_map.1 hpiece
    exact (htokens c (List.mem_range.1 hc)).2

/-- A row with an element is not empty. -/
private theorem ne_nil_of_elements {row : List Char} (h : elements row ≠ []) : row ≠ [] := by
  rintro rfl
  exact h rfl

/-- A text that spells a kernel is read as that kernel: reading finds the rows and tokens again. -/
theorem parseChars_of_spells {cs : List Char} {k : Kernel} (h : Spells k cs) :
    parseChars cs = .ok k := by
  obtain ⟨hwide, hhigh, hfilled, row, token, htext, hrows, htokens⟩ := h
  -- A token reads as a weight, so it is not empty, and the tokens are the elements of their row
  have helements : ∀ r < k.height, elements (row r) = (List.range k.width).map (token r) := by
    intro r hr
    refine elements_of_delimited hwide (hrows r hr) fun c hc => ?_
    obtain ⟨helement, -, weight, -, -, hreads⟩ := htokens r hr c hc
    exact ⟨helement, hreads.ne_nil⟩
  have hlength : ∀ r < k.height, (elements (row r)).length = k.width := by
    intro r hr
    rw [helements r hr, List.length_map, List.length_range]
  -- And the rows are the fields of the text
  have hfields : fields rowDelimiter cs = (List.range k.height).map row := by
    refine fields_of_delimited (map_range_ne_nil hhigh row) ?_ ?_ htext
    · intro line hline hmem
      obtain ⟨r, hr, rfl⟩ := List.mem_map.1 hline
      have hr := List.mem_range.1 hr
      obtain ⟨piece, hpiece, hc⟩ := exists_mem_piece (hrows r hr) hmem (by decide)
      obtain ⟨c, hcolumn, rfl⟩ := List.mem_map.1 hpiece
      exact (htokens r hr c (List.mem_range.1 hcolumn)).2.1 hc
    · intro line hline
      obtain ⟨r, hr, rfl⟩ := List.mem_map.1 hline
      refine ne_nil_of_elements (List.length_pos_iff.1 ?_)
      rw [hlength r (List.mem_range.1 hr)]
      exact hwide
  have hlengths : ∀ line ∈ (List.range k.height).map row, (elements line).length = k.width := by
    intro line hline
    obtain ⟨r, hr, rfl⟩ := List.mem_map.1 hline
    exact hlength r (List.mem_range.1 hr)
  rw [parseChars_eq_ok_iff, hfields]
  refine ⟨hwide, by simp, map_range_ne_nil hhigh row, hlengths, ?_⟩
  refine List.forall₂_iff_get.2 ⟨?_, fun i hi hi' => ?_⟩
  · rw [length_flatMap_elements hlengths, List.length_map, List.length_range, hfilled,
      Nat.mul_comm]
  · -- Index `i` is the cell in row `i / width` and column `i % width`
    have hc : i % k.width < k.width := Nat.mod_lt i hwide
    have hr : i / k.width < k.height := Nat.div_lt_of_lt_mul (hfilled ▸ hi')
    have hcell : i / k.width * k.width + i % k.width = i := by
      rw [Nat.mul_comm]
      exact Nat.div_add_mod i k.width
    have hindex := getElem?_flatMap_elements (r := i / k.width) hlengths hc
    obtain ⟨-, -, weight, hweight, -, hreads⟩ := htokens _ hr _ hc
    rw [hcell, List.getElem?_map, List.getElem?_range hr, Option.map_some, Option.bind_some,
      helements _ hr, List.getElem?_map, List.getElem?_range hc, Option.map_some,
      List.getElem?_eq_getElem hi] at hindex
    rw [hcell, List.getElem?_eq_getElem hi'] at hweight
    rw [List.get_eq_getElem, List.get_eq_getElem, Option.some.inj hindex, Option.some.inj hweight]
    exact hreads

/-- A text is read as a kernel exactly when it spells it. -/
theorem parse_eq_ok_iff (s : String) (k : Kernel) : parse s = .ok k ↔ Spells k s.toList :=
  ⟨spells_of_parseChars, parseChars_of_spells⟩

/-! ## The shape of what is read -/

/-- What is read has a weight. -/
theorem weights_ne_nil_of_parseChars {cs : List Char} {k : Kernel} (h : parseChars cs = .ok k) :
    k.weights ≠ [] := by
  obtain ⟨hwide, hhigh, hfilled, -⟩ := spells_of_parseChars h
  have hlength : 0 < k.weights.length := by
    rw [hfilled]
    exact Nat.mul_pos hwide hhigh
  exact List.length_pos_iff.1 hlength

/-- Only finite weights are read. -/
theorem isFinite_of_parseChars {cs : List Char} {k : Kernel} (h : parseChars cs = .ok k) :
    ∀ w ∈ k.weights, w.isFinite := by
  obtain ⟨-, -, -, -, hdenotes⟩ := parseChars_eq_ok_iff.1 h
  have hboth : List.Forall₂ (fun weight token => weight.isFinite ∧ Denotes token weight)
      k.weights ((fields rowDelimiter cs).flatMap elements) :=
    (hdenotes.imp fun _ _ hreads => ⟨hreads.isFinite, hreads⟩).flip
  exact ((List.forall₂_and_left _ _).1 hboth).1

/-- The fields of a text stand in it, one behind the other. -/
private theorem flatten_fields_sublist (delimiter : Char) (cs : List Char) :
    (fields delimiter cs).flatten.Sublist cs := by
  by_cases hne : fields delimiter cs = []
  · rw [hne]
    exact List.nil_sublist cs
  · have hdelimited := delimited_fields hne
    generalize fields delimiter cs = pieces at *
    rcases hdelimited with rfl | rfl
    · exact flatten_sublist_intercalate _ _
    · exact (flatten_sublist_intercalate _ _).trans (List.sublist_append_left _ _)

/-- The elements of all rows stand in the rows, one behind the other. -/
private theorem flatten_flatMap_elements_sublist (rows : List (List Char)) :
    (rows.flatMap elements).flatten.Sublist rows.flatten := by
  induction rows with
  | nil => simp
  | cons line rest ih =>
    rw [List.flatMap_cons, List.flatten_append, List.flatten_cons]
    exact (flatten_fields_sublist elementDelimiter line).append ih

/-- Texts that are not empty are no more than their characters. -/
private theorem length_le_length_flatten {pieces : List (List Char)}
    (hfull : ∀ piece ∈ pieces, piece ≠ []) : pieces.length ≤ pieces.flatten.length := by
  induction pieces with
  | nil => simp
  | cons piece rest ih =>
    have hpiece : 0 < piece.length := List.length_pos_iff.2 (hfull piece List.mem_cons_self)
    have hrest := ih fun p hp => hfull p (List.mem_cons_of_mem _ hp)
    rw [List.flatten_cons, List.length_append, List.length_cons]
    omega

/-- A kernel has no more weights than its text has characters. -/
theorem length_weights_le {cs : List Char} {k : Kernel} (h : parseChars cs = .ok k) :
    k.weights.length ≤ cs.length := by
  obtain ⟨-, -, -, -, hdenotes⟩ := parseChars_eq_ok_iff.1 h
  -- What reads as a weight is not empty
  have hfull : ∀ token ∈ (fields rowDelimiter cs).flatMap elements, token ≠ [] := by
    intro token htoken
    obtain ⟨i, hi⟩ := List.mem_iff_getElem?.1 htoken
    obtain ⟨_, -, hreads⟩ := exists_weight hdenotes hi
    exact hreads.ne_nil
  calc k.weights.length
      = ((fields rowDelimiter cs).flatMap elements).length := hdenotes.length_eq.symm
    _ ≤ ((fields rowDelimiter cs).flatMap elements).flatten.length := length_le_length_flatten hfull
    _ ≤ (fields rowDelimiter cs).flatten.length :=
        (flatten_flatMap_elements_sublist _).length_le
    _ ≤ cs.length := (flatten_fields_sublist rowDelimiter cs).length_le

end Stencil.Kernel
