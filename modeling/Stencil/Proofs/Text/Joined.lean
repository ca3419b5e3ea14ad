import Stencil.Text.Occurrence
import Stencil.Text.Pieces

/-!
# Joined texts

What joining with a separator does to the characters of a text, and the ways to take a joined text
apart again: at a single delimiter, at its line ends, and at the matches of a separator of several
characters.

## Key results

- `split_intercalate`: splitting inverts joining when no piece holds the delimiter
- `lines_append`: behind a text that ends its last line the lines start afresh
- `lines_intercalate`: the lines of a block of lines are the lines it was made from
- `getLast?_of_lines_eq`: only the last line of a text may lack its line feed
- `cut_at_first`: a text is cut at its first match, and from there on
- `cut_intercalate`: cutting inverts joining when the separator ends in a character that stands
  nowhere else
-/

namespace Stencil.Text

/-! ## Characters of a joined text -/

/-- The first piece stands in front, and every other piece behind a separator. -/
theorem intercalate_cons_eq_flatMap (separator piece : List Char) (pieces : List (List Char)) :
    separator.intercalate (piece :: pieces) = piece ++ pieces.flatMap (separator ++ ·) := by
  induction pieces generalizing piece with
  | nil => simp
  | cons next more ih =>
    rw [List.intercalate_cons_cons, ih, List.flatMap_cons]
    simp only [List.append_assoc]

/-- What stands in a piece stands in the joined text. -/
theorem mem_intercalate_of_mem {separator piece : List Char} {pieces : List (List Char)} {c : Char}
    (hpiece : piece ∈ pieces) (hc : c ∈ piece) : c ∈ separator.intercalate pieces := by
  induction pieces with
  | nil => exact absurd hpiece List.not_mem_nil
  | cons first rest ih =>
    cases rest with
    | nil => simpa [List.mem_singleton.1 hpiece] using hc
    | cons next more =>
      rw [List.intercalate_cons_cons]
      -- The piece is the first one, or one of the joined rest
      rcases List.mem_cons.1 hpiece with rfl | htail
      · simp [hc]
      · exact List.mem_append_right _ (ih htail)

/-- A joined text holds nothing but its pieces and separators. -/
theorem mem_or_exists_of_mem_intercalate {separator : List Char} {pieces : List (List Char)}
    {c : Char} (hc : c ∈ separator.intercalate pieces) :
    c ∈ separator ∨ ∃ piece ∈ pieces, c ∈ piece := by
  induction pieces with
  | nil => exact absurd hc (by simp)
  | cons first rest ih =>
    cases rest with
    | nil => exact Or.inr ⟨first, List.mem_cons_self, by simpa using hc⟩
    | cons next more =>
      rw [List.intercalate_cons_cons, List.mem_append, List.mem_append] at hc
      -- The first piece, the separator behind it, or the joined rest
      rcases hc with (hfirst | hseparator) | htail
      · exact Or.inr ⟨first, List.mem_cons_self, hfirst⟩
      · exact Or.inl hseparator
      · rcases ih htail with hseparator | ⟨piece, hpiece, hmem⟩
        · exact Or.inl hseparator
        · exact Or.inr ⟨piece, List.mem_cons_of_mem _ hpiece, hmem⟩

/-- A joined text holds its pieces, one behind the other. -/
theorem flatten_sublist_intercalate (separator : List Char) (pieces : List (List Char)) :
    pieces.flatten.Sublist (separator.intercalate pieces) := by
  induction pieces with
  | nil => simp
  | cons first rest ih =>
    cases rest with
    | nil => simp
    | cons next more =>
      rw [List.intercalate_cons_cons, List.flatten_cons, List.append_assoc]
      exact (List.Sublist.refl first).append (ih.trans (List.sublist_append_right _ _))

/-- With a separator behind it a joined text is the pieces, each with a separator behind it. -/
theorem intercalate_append_separator (separator : List Char) {pieces : List (List Char)}
    (hne : pieces ≠ []) :
    separator.intercalate pieces ++ separator = (pieces.map (· ++ separator)).flatten := by
  induction pieces with
  | nil => exact absurd rfl hne
  | cons first rest ih =>
    cases rest with
    | nil => simp
    | cons next more =>
      rw [List.intercalate_cons_cons, List.append_assoc, ih (List.cons_ne_nil _ _)]
      rfl

/-! ## Splitting at a delimiter -/

/-- Splitting is the splitting of lists. -/
theorem split_eq_splitOn (delimiter : Char) (cs : List Char) :
    split delimiter cs = cs.splitOn delimiter := by
  induction cs with
  | nil => simp [split]
  | cons c cs ih => simp [split, List.splitOn_cons_eq_if_modifyHead, ih]

/-- Splitting a joined text gives the pieces back. -/
theorem split_intercalate {delimiter : Char} {pieces : List (List Char)} (hne : pieces ≠ [])
    (hfree : ∀ piece ∈ pieces, delimiter ∉ piece) :
    split delimiter ([delimiter].intercalate pieces) = pieces := by
  rw [split_eq_splitOn, List.splitOn_intercalate delimiter hfree hne]

/-! ## Lines -/

/-- The first line ends at the first line feed. -/
theorem lines_append_cons {line : List Char} (h : '\n' ∉ line) (rest : List Char) :
    lines (line ++ '\n' :: rest) = (line ++ ['\n']) :: lines rest := by
  induction line with
  | nil => simp [lines]
  | cons c cs ih =>
    rw [List.mem_cons, not_or] at h
    -- No line ends at `c`, so `c` joins the first line of the rest
    have hc : c ≠ '\n' := fun same => h.1 same.symm
    simp only [List.cons_append, lines, hc, ↓reduceIte, ih h.2]

/-- Behind a text that ends its last line the lines start afresh. -/
theorem lines_append {before : List Char} (h : before = [] ∨ before.getLast? = some '\n')
    (after : List Char) : lines (before ++ after) = lines before ++ lines after := by
  induction before with
  | nil => rfl
  | cons c cs ih =>
    -- What stands behind `c` ends its last line as well, unless nothing stands there
    have hrest : cs = [] ∨ cs.getLast? = some '\n' := by
      cases cs with
      | nil => exact Or.inl rfl
      | cons d ds => simpa using h
    rw [List.cons_append, lines, lines, ih hrest]
    by_cases hc : c = '\n'
    · simp [hc]
    · -- `c` joins the first line of what stands behind it, and there is one
      have hne : lines cs ≠ [] := by
        intro hnil
        have hflat := flatten_lines cs
        rw [hnil, List.flatten_nil] at hflat
        simp [← hflat, hc] at h
      obtain ⟨line, rest, hlines⟩ := List.exists_cons_of_ne_nil hne
      simp [hc, hlines]

/-- The lines of texts that end their last lines are the lines of the texts, one after the other. -/
theorem lines_flatten_append {texts : List (List Char)}
    (h : ∀ text ∈ texts, text.getLast? = some '\n') (after : List Char) :
    lines (texts.flatten ++ after) = texts.flatMap lines ++ lines after := by
  induction texts with
  | nil => rfl
  | cons text more ih =>
    have hfirst : text.getLast? = some '\n' := h text List.mem_cons_self
    rw [List.flatten_cons, List.append_assoc, lines_append (Or.inr hfirst),
      ih fun t ht => h t (List.mem_cons_of_mem _ ht), List.flatMap_cons, List.append_assoc]

/-- The lines of a block of lines, each of them ended by a line feed. -/
theorem lines_intercalate {ls : List (List Char)} (hne : ls ≠ [])
    (hfree : ∀ line ∈ ls, '\n' ∉ line) :
    lines (['\n'].intercalate ls ++ ['\n']) = ls.map (· ++ ['\n']) := by
  induction ls with
  | nil => exact absurd rfl hne
  | cons line rest ih =>
    have hline : '\n' ∉ line := hfree line List.mem_cons_self
    cases rest with
    | nil =>
      rw [List.intercalate_singleton, lines_append_cons hline]
      rfl
    | cons next more =>
      -- The first line is cut off at its line feed; the rest is a block again
      rw [List.intercalate_cons_cons, List.append_assoc, List.append_assoc, List.singleton_append,
        lines_append_cons hline, List.map_cons,
        ih (List.cons_ne_nil _ _) fun l hl => hfree l (List.mem_cons_of_mem _ hl)]

/-- A line that another line follows ends in its line feed. -/
theorem getLast?_of_lines_eq {cs : List Char} {front back : List (List Char)} {line : List Char}
    (h : lines cs = front ++ line :: back) (hback : back ≠ []) : line.getLast? = some '\n' := by
  induction cs generalizing front line with
  | nil => simp [lines] at h
  | cons c cs ih =>
    unfold lines at h
    split at h
    · -- A line feed is a line of its own, in front of the lines of the rest.
      rename_i hc
      cases front with
      | nil =>
        obtain ⟨rfl, -⟩ := List.cons.inj h
        simp [hc]
      | cons first front => exact ih (List.cons.inj h).2
    · split at h
      · -- There is a single line, so none follows it.
        cases front with
        | nil => exact absurd (List.cons.inj h).2.symm hback
        | cons first front => simp at h
      · rename_i first others hlines
        cases front with
        | nil =>
          obtain ⟨rfl, rfl⟩ := List.cons.inj h
          have hnone : lines cs = [] ++ first :: others := hlines
          have hlast : first.getLast? = some '\n' := ih hnone
          rw [List.getLast?_cons, hlast]
          rfl
        | cons _ front =>
          obtain ⟨-, rfl⟩ := List.cons.inj h
          have hsome : lines cs = (first :: front) ++ line :: back := hlines
          exact ih hsome

/-! ## Cutting at a separator -/

/-- Skipped characters leave no trace. -/
private theorem cutFrom_length_append (token skipped cs : List Char) :
    cutFrom token skipped.length (skipped ++ cs) = cutFrom token 0 cs := by
  induction skipped with
  | nil => rfl
  | cons c rest ih => exact ih

/-- A match at the start of a text cuts off an empty piece. -/
theorem cut_append_self {token : List Char} (h : token ≠ []) (cs : List Char) :
    cut token (token ++ cs) = [] :: cut token cs := by
  obtain ⟨c, rest, rfl⟩ := List.exists_cons_of_ne_nil h
  have hmatch : (c :: rest).isPrefixOf (c :: (rest ++ cs)) := by simp
  unfold cut
  rw [List.cons_append, cutFrom, if_pos hmatch, List.length_cons, Nat.add_sub_cancel,
    cutFrom_length_append]

/-- A piece is kept whole as long as no match starts in it. -/
theorem cut_append_of_forall {token piece cs : List Char}
    (h : ∀ tail, tail ≠ [] → tail <:+ piece → ¬ token <+: tail ++ cs) :
    cut token (piece ++ cs) = (cut token cs).modifyHead (piece ++ ·) := by
  induction piece with
  | nil =>
    obtain ⟨first, others, hcut⟩ := List.exists_cons_of_ne_nil (cutFrom_ne_nil token 0 cs)
    simp [cut, hcut]
  | cons c rest ih =>
    -- No match starts at `c`, and by induction none in the rest of the piece
    have hmatch : ¬ token.isPrefixOf (c :: (rest ++ cs)) := by
      rw [List.isPrefixOf_iff_prefix]
      exact h (c :: rest) (List.cons_ne_nil _ _) (List.suffix_refl _)
    have hrest := ih fun tail hne hsuffix => h tail hne (hsuffix.trans (List.suffix_cons c rest))
    unfold cut at hrest ⊢
    rw [List.cons_append, cutFrom, if_neg hmatch, hrest, List.modifyHead_modifyHead]
    rfl

/-- A text is cut at its first match, and from there on. -/
theorem cut_at_first {token piece cs : List Char} (hne : token ≠ [])
    (hfirst : ∀ tail, tail ≠ [] → tail <:+ piece → ¬ token <+: tail ++ (token ++ cs)) :
    cut token (piece ++ (token ++ cs)) = piece :: cut token cs := by
  rw [cut_append_of_forall hfirst, cut_append_self hne, List.modifyHead_cons, List.append_nil]

/-- A text without match is one piece. -/
theorem cut_of_not_occurs {token cs : List Char} (h : ¬ token <:+: cs) : cut token cs = [cs] := by
  have hkept : cut token (cs ++ []) = (cut token []).modifyHead (cs ++ ·) := by
    refine cut_append_of_forall fun tail _ hsuffix hmatch => h ?_
    rw [List.append_nil] at hmatch
    exact hmatch.isInfix.trans hsuffix.isInfix
  simpa [cut, cutFrom] using hkept

/-- A match of `marks ++ [last]` does not start inside a piece without `last`: the match would put
    `last` in front of where it can stand. -/
private theorem not_prefix_of_last {marks tail cs : List Char} {last : Char}
    (hmarks : last ∉ marks) (htail : last ∉ tail) (hne : tail ≠ []) :
    ¬ marks ++ [last] <+: tail ++ (marks ++ [last]) ++ cs := by
  rintro ⟨rest, hrest⟩
  -- The last character of the match falls on `tail ++ marks`, where it cannot stand
  have hlength : marks.length < (tail ++ marks).length := by
    have := List.length_pos_iff.2 hne
    rw [List.length_append]
    omega
  have hget : (tail ++ marks)[marks.length] = last := by
    have h := congrArg (·[marks.length]?) hrest
    simp only [List.append_assoc] at h
    rw [List.getElem?_append_right (Nat.le_refl _), Nat.sub_self, ← List.append_assoc tail,
      List.getElem?_append_left hlength, List.getElem?_eq_getElem hlength] at h
    simpa using h.symm
  have hmem : last ∈ tail ++ marks := hget ▸ List.getElem_mem hlength
  rcases List.mem_append.1 hmem with h | h
  · exact htail h
  · exact hmarks h

/-- Cutting a joined text at its separator gives the pieces back, when the last character of the
    separator stands nowhere else. -/
theorem cut_intercalate {marks : List Char} {last : Char} {pieces : List (List Char)}
    (hne : pieces ≠ []) (hmarks : last ∉ marks) (hfree : ∀ piece ∈ pieces, last ∉ piece) :
    cut (marks ++ [last]) ((marks ++ [last]).intercalate pieces) = pieces := by
  induction pieces with
  | nil => exact absurd rfl hne
  | cons piece rest ih =>
    have hpiece : last ∉ piece := hfree piece List.mem_cons_self
    cases rest with
    | nil =>
      -- The last piece: a match would put `last` into it
      rw [List.intercalate_singleton]
      refine cut_of_not_occurs fun hinfix => hpiece ?_
      exact hinfix.subset (by simp)
    | cons next more =>
      rw [List.intercalate_cons_cons, List.append_assoc]
      -- No match starts in the piece, and one starts right behind it
      have hkept : ∀ tail, tail ≠ [] → tail <:+ piece → ¬ marks ++ [last] <+:
          tail ++ (marks ++ [last] ++ (marks ++ [last]).intercalate (next :: more)) := by
        intro tail htail hsuffix
        rw [← List.append_assoc]
        exact not_prefix_of_last hmarks (fun hmem => hpiece (hsuffix.subset hmem)) htail
      rw [cut_at_first (by simp) hkept,
        ih (List.cons_ne_nil _ _) fun p hp => hfree p (List.mem_cons_of_mem _ hp)]

end Stencil.Text
