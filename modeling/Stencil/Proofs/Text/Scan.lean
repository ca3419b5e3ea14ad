import Stencil.Proofs.Text.Replacement
import Stencil.Text.Position

/-!
# The scan for matches

`Scanned` is the scan of a text from left to right, as a relation: a match that is found is passed
over as a whole, and where there is none the scan goes on by one character.  It finds the matches
that `cut` removes, so what it says about a seam decides what a replacement does to both parts.

A match that straddles the seam takes the end of the first part with it.  On its own that part keeps
what belongs to the match, since nothing shorter than the token is a match.

## Key results

- `overhang_eq_zero_iff`: the scan reaches over a seam exactly when a match straddles it
- `overhang_eq_zero`: it does not when no occurrence of the token straddles the seam
- `replace_scanned`: at a match of the scan, both sides are replaced separately
- `replace_before_scanned`: what stands in front of the seam keeps its share of a straddling match
- `exists_rest_of_byteLength_le`: of two initial parts of a text the shorter begins the longer
- `exists_seam` / `matchStraddles_iff`: a byte position inside a match cuts the match in two
- `byteLength_replace`: the length of a replaced text, from the number of matches
-/

namespace Stencil.Text

/-! ## Matches -/

/-- The scan of a text from left to right finds a match with `front` before and `back` behind it. -/
inductive Scanned (token : List Char) : List Char → List Char → List Char → Prop
  /-- The text begins with a match. -/
  | here (back : List Char) : Scanned token (token ++ back) [] back
  /-- The text begins with a match, and the scan goes on behind it. -/
  | behind {cs front back : List Char} (h : Scanned token cs front back) :
      Scanned token (token ++ cs) (token ++ front) back
  /-- The text does not begin with a match, and the scan goes on behind its first character. -/
  | past {c : Char} {cs front back : List Char} (hmatch : ¬ token <+: c :: cs)
      (h : Scanned token cs front back) : Scanned token (c :: cs) (c :: front) back

/-- A match stands between what is before and what is behind it. -/
theorem Scanned.text_eq {token cs front back : List Char} (h : Scanned token cs front back) :
    cs = front ++ (token ++ back) := by
  induction h with
  | here back => rfl
  | behind _ ih => rw [ih, List.append_assoc]
  | past _ _ ih => rw [ih, List.cons_append]

/-! ## The scan at a seam -/

/-- Skipped characters leave no trace. -/
private theorem overhang_length_append (token skipped before after : List Char) :
    overhang token skipped.length (skipped ++ before) after = overhang token 0 before after := by
  induction skipped with
  | nil => rfl
  | cons c rest ih => exact ih

/-- A match in front of the seam is passed over. -/
private theorem overhang_append_self {token : List Char} (hne : token ≠ [])
    (before after : List Char) :
    overhang token 0 (token ++ before) after = overhang token 0 before after := by
  obtain ⟨c, rest, rfl⟩ := List.exists_cons_of_ne_nil hne
  have hmatch : (c :: rest).isPrefixOf (c :: (rest ++ before ++ after)) := by simp
  rw [List.cons_append, overhang, if_pos hmatch, List.length_cons, Nat.add_sub_cancel,
    overhang_length_append]

/-- The scan comes to the start of a match. -/
theorem Scanned.overhang_eq_zero {token cs front back : List Char} (hne : token ≠ [])
    (h : Scanned token cs front back) : overhang token 0 front (token ++ back) = 0 := by
  induction h with
  | here back => rfl
  | behind _ ih => rw [overhang_append_self hne, ih]
  | past hmatch h ih =>
    rw [h.text_eq] at hmatch
    rw [overhang, if_neg (by rwa [List.isPrefixOf_iff_prefix]), ih]

/-- Without overhang into a text there is none into the beginning of that text. -/
theorem overhang_eq_zero_of_append {token before : List Char} {skip : Nat} (x y : List Char)
    (h : overhang token skip before (x ++ y) = 0) : overhang token skip before x = 0 := by
  induction before generalizing skip with
  | nil => exact h
  | cons c before ih =>
    cases skip with
    | succ skip => exact ih h
    | zero =>
      rw [overhang] at h ⊢
      by_cases hshort : token.isPrefixOf (c :: (before ++ x))
      · -- A match in the shorter text is one in the longer
        have hlong : token.isPrefixOf (c :: (before ++ (x ++ y))) := by
          rw [List.isPrefixOf_iff_prefix] at hshort ⊢
          exact hshort.trans ⟨y, by simp⟩
        rw [if_pos hlong] at h
        rw [if_pos hshort]
        exact ih h
      · rw [if_neg hshort]
        by_cases hlong : token.isPrefixOf (c :: (before ++ (x ++ y)))
        · -- A match in the longer text alone ends behind `before ++ x`, beyond the seam
          exfalso
          rw [if_pos hlong] at h
          have hle := le_length_add_overhang token (token.length - 1) before (x ++ y)
          rw [List.isPrefixOf_iff_prefix] at hlong hshort
          apply hshort
          refine List.prefix_of_prefix_length_le hlong ⟨y, by simp⟩ ?_
          simp only [List.length_cons, List.length_append]
          omega
        · rw [if_neg hlong] at h
          exact ih h

/-- A match of the scan that begins in one text and ends in the text behind it. -/
def MatchStraddles (token before after : List Char) : Prop :=
  ∃ front l₁ l₂ back, l₁ ≠ [] ∧ l₂ ≠ [] ∧ token = l₁ ++ l₂ ∧ before = front ++ l₁ ∧
    after = l₂ ++ back ∧ Scanned token (before ++ after) front back

/-- What straddles the seam does so behind a match as well. -/
private theorem MatchStraddles.behind {token before after : List Char}
    (h : MatchStraddles token before after) : MatchStraddles token (token ++ before) after := by
  obtain ⟨front, l₁, l₂, back, hl₁, hl₂, htoken, rfl, hafter, hscan⟩ := h
  refine ⟨token ++ front, l₁, l₂, back, hl₁, hl₂, htoken, by simp, hafter, ?_⟩
  rw [List.append_assoc]
  exact Scanned.behind hscan

/-- What straddles the seam does so behind a character at which there is no match. -/
private theorem MatchStraddles.past {token before after : List Char} {c : Char}
    (hmatch : ¬ token <+: c :: (before ++ after)) (h : MatchStraddles token before after) :
    MatchStraddles token (c :: before) after := by
  obtain ⟨front, l₁, l₂, back, hl₁, hl₂, htoken, hbefore, hafter, hscan⟩ := h
  refine ⟨c :: front, l₁, l₂, back, hl₁, hl₂, htoken, by rw [hbefore, List.cons_append], hafter, ?_⟩
  exact Scanned.past hmatch hscan

/-- A match that straddles a seam is not empty. -/
private theorem MatchStraddles.ne_nil {token before after : List Char}
    (h : MatchStraddles token before after) : token ≠ [] := by
  obtain ⟨front, l₁, l₂, back, hl₁, hl₂, rfl, -⟩ := h
  simp [hl₁]

/-- Where the scan reaches over a seam, one of its matches straddles the seam. -/
private theorem matchStraddles_of_overhang_ne {token : List Char} {skip : Nat}
    {before after : List Char} (hskip : skip ≤ before.length)
    (h : overhang token skip before after ≠ 0) :
    MatchStraddles token (before.drop skip) after := by
  -- Induction on what stands before the seam, with the part of it that is skipped
  induction before generalizing skip with
  | nil =>
    obtain rfl : skip = 0 := by simpa using hskip
    exact absurd rfl h
  | cons c before ih =>
    cases skip with
    | succ skip => exact ih (Nat.le_of_succ_le_succ hskip) h
    | zero =>
      rw [overhang] at h
      by_cases hmatch : token.isPrefixOf (c :: (before ++ after))
      · rw [if_pos hmatch] at h
        cases token with
        | nil =>
          -- An empty match ends where it begins, so the next one would have to straddle the seam
          have hrest := ih (Nat.zero_le _) h
          exact absurd rfl hrest.ne_nil
        | cons d marks =>
          obtain ⟨rfl, hmarks⟩ := List.cons_prefix_cons.1 (List.isPrefixOf_iff_prefix.1 hmatch)
          rw [List.length_cons, Nat.add_sub_cancel] at h
          by_cases hfits : marks.length ≤ before.length
          · -- The match ends in front of the seam, and the scan goes on behind it
            have hinner : marks <+: before :=
              List.prefix_of_prefix_length_le hmarks (List.prefix_append before after) hfits
            obtain ⟨rest, rfl⟩ := hinner
            have hrest := ih hfits h
            rw [List.drop_left] at hrest
            exact hrest.behind
          · -- The match has begun in front of the seam and is not over there
            have hinner : before <+: marks :=
              List.prefix_of_prefix_length_le (List.prefix_append before after) hmarks (by omega)
            obtain ⟨l₂, rfl⟩ := hinner
            obtain ⟨back, rfl⟩ := (List.prefix_append_right_inj before).1 hmarks
            refine ⟨[], d :: before, l₂, back, List.cons_ne_nil _ _, ?_, rfl, rfl, rfl, ?_⟩
            · intro hnil
              simp [hnil] at hfits
            · have hscan : Scanned (d :: (before ++ l₂)) (d :: (before ++ l₂) ++ back) [] back :=
                Scanned.here back
              simpa using hscan
      · rw [if_neg hmatch] at h
        rw [List.isPrefixOf_iff_prefix] at hmatch
        have hrest := ih (Nat.zero_le _) h
        exact hrest.past hmatch

/-- A match under way ends its length behind its start. -/
private theorem overhang_of_length_le {token before after : List Char} {skip : Nat}
    (h : before.length ≤ skip) : overhang token skip before after = skip - before.length := by
  induction before generalizing skip with
  | nil => rfl
  | cons c before ih =>
    obtain ⟨skip, rfl⟩ := Nat.exists_eq_succ_of_ne_zero (n := skip) (by simp at h; omega)
    rw [List.length_cons] at h ⊢
    rw [overhang, ih (by omega)]
    omega

/-- The scan reaches over the seam by what a straddling match has behind it. -/
private theorem overhang_scanned {cs front l₁ l₂ back : List Char} (hl₁ : l₁ ≠ [])
    (h : Scanned (l₁ ++ l₂) cs front back) :
    overhang (l₁ ++ l₂) 0 (front ++ l₁) (l₂ ++ back) = l₂.length := by
  have hne : l₁ ++ l₂ ≠ [] := by simp [hl₁]
  generalize htoken : l₁ ++ l₂ = token at h hne
  induction h with
  | here back =>
    subst htoken
    obtain ⟨c, rest, rfl⟩ := List.exists_cons_of_ne_nil hl₁
    have hmatch : (c :: rest ++ l₂).isPrefixOf (c :: (rest ++ (l₂ ++ back))) := by simp
    rw [List.nil_append, overhang, if_pos hmatch, overhang_of_length_le]
    · simp
    · simp
  | behind h ih => rw [List.append_assoc, overhang_append_self hne, ih]
  | past hmatch h ih =>
    rw [h.text_eq, ← htoken, List.append_assoc] at hmatch
    rw [List.cons_append, overhang, if_neg, ih]
    rw [List.isPrefixOf_iff_prefix, List.append_assoc, ← htoken]
    exact hmatch

/-- The scan reaches over a seam exactly when one of its matches straddles the seam. -/
theorem overhang_eq_zero_iff {token before after : List Char} :
    overhang token 0 before after = 0 ↔ ¬ MatchStraddles token before after := by
  constructor
  · intro hzero hstraddles
    obtain ⟨front, l₁, l₂, back, hl₁, hl₂, rfl, rfl, rfl, hscan⟩ := hstraddles
    rw [overhang_scanned hl₁ hscan] at hzero
    exact hl₂ (List.length_eq_zero_iff.1 hzero)
  · intro hnone
    by_cases hzero : overhang token 0 before after = 0
    · exact hzero
    · exact absurd (matchStraddles_of_overhang_ne (Nat.zero_le _) hzero) hnone

instance (token before after : List Char) : Decidable (MatchStraddles token before after) :=
  decidable_of_iff (¬ overhang token 0 before after = 0) <| by
    rw [overhang_eq_zero_iff, Classical.not_not]

/-- There is no overhang where no occurrence of the token straddles the seam, found by the scan or
    not. -/
theorem overhang_eq_zero {token before after : List Char} (h : ¬ Straddles token before after) :
    overhang token 0 before after = 0 := by
  rw [overhang_eq_zero_iff]
  intro hstraddles
  obtain ⟨front, l₁, l₂, back, hl₁, hl₂, htoken, rfl, rfl, -⟩ := hstraddles
  exact h ⟨l₁, l₂, hl₁, hl₂, htoken, List.suffix_append _ _, List.prefix_append _ _⟩

/-! ## Replacing at a match of the scan -/

/-- At a match of the scan both sides are replaced separately. -/
theorem replace_scanned {token cs front back : List Char} (new : List Char) (hne : token ≠ [])
    (h : Scanned token cs front back) :
    replace token new cs = replace token new front ++ (new ++ replace token new back) := by
  have hfirst : replace token new ([] ++ (token ++ back)) = [] ++ (new ++ replace token new back) :=
    replace_at_first new hne fun tail htail hsuffix => absurd (List.suffix_nil.1 hsuffix) htail
  rw [h.text_eq, replace_append new _ (h.overhang_eq_zero hne)]
  exact congrArg _ hfirst

/-- What stands in front of a seam keeps its share of the match that straddles the seam. -/
theorem replace_before_scanned {token cs front l₁ l₂ back : List Char} (new : List Char)
    (hl₂ : l₂ ≠ []) (htoken : token = l₁ ++ l₂) (h : Scanned token cs front back) :
    replace token new (front ++ l₁) = replace token new front ++ l₁ := by
  have hne : token ≠ [] := by simp [htoken, hl₂]
  have hzero := h.overhang_eq_zero hne
  -- The share is shorter than the token, so nothing in it is a match
  have hshort : ¬ token <:+: l₁ := by
    intro hinfix
    have hle := hinfix.length_le
    have hpos := List.length_pos_iff.2 hl₂
    rw [htoken, List.length_append] at hle
    omega
  rw [htoken, List.append_assoc, ← htoken] at hzero
  rw [replace_append new _ (overhang_eq_zero_of_append _ _ hzero), replace_of_not_occurs new hshort]

/-! ## Byte lengths -/

/-- A text that is not empty has bytes. -/
theorem byteLength_pos {cs : List Char} (h : cs ≠ []) : 0 < byteLength cs := by
  obtain ⟨c, rest, rfl⟩ := List.exists_cons_of_ne_nil h
  have hsize := c.utf8Size_pos
  rw [byteLength_cons]
  omega

/-- An initial part of a text that is not longer than another one is the beginning of the other. -/
theorem exists_rest_of_byteLength_le {front back before after : List Char}
    (htext : before ++ after = front ++ back) (hle : byteLength front ≤ byteLength before) :
    ∃ rest, before = front ++ rest ∧ back = rest ++ after := by
  rcases List.append_eq_append_iff.1 htext with ⟨x, rfl, rfl⟩ | ⟨rest, hbefore, hback⟩
  · -- `front` would go on behind `before`
    cases x with
    | nil => exact ⟨[], by simp, by simp⟩
    | cons c x =>
      have hpos := byteLength_pos (List.cons_ne_nil c x)
      rw [byteLength_append] at hle
      omega
  · exact ⟨rest, hbefore, hback⟩

/-- A byte position inside a match cuts the match in two. -/
theorem exists_seam {token front back before after : List Char}
    (htext : before ++ after = front ++ (token ++ back))
    (hbegin : byteLength front < byteLength before)
    (hend : byteLength before < byteLength (front ++ token)) :
    ∃ l₁ l₂, l₁ ≠ [] ∧ l₂ ≠ [] ∧ token = l₁ ++ l₂ ∧ before = front ++ l₁ ∧ after = l₂ ++ back := by
  -- `front` begins the part before the position, and what is left of that part begins the token
  obtain ⟨l₁, rfl, hrest⟩ := exists_rest_of_byteLength_le htext (Nat.le_of_lt hbegin)
  simp only [byteLength_append] at hbegin hend
  obtain ⟨l₂, rfl, rfl⟩ := exists_rest_of_byteLength_le hrest (by omega)
  rw [byteLength_append] at hend
  refine ⟨l₁, l₂, ?_, ?_, rfl, rfl, rfl⟩
  · rintro rfl
    simp at hbegin
  · rintro rfl
    simp at hend

/-- A match straddles a seam when it begins before and ends behind its byte position. -/
theorem matchStraddles_iff {token before after : List Char} :
    MatchStraddles token before after ↔
      ∃ front back, Scanned token (before ++ after) front back ∧
        byteLength front < byteLength before ∧ byteLength before < byteLength (front ++ token) := by
  constructor
  · rintro ⟨front, l₁, l₂, back, hl₁, hl₂, rfl, rfl, rfl, hscan⟩
    have hpos₁ := byteLength_pos hl₁
    have hpos₂ := byteLength_pos hl₂
    refine ⟨front, back, hscan, ?_, ?_⟩
    · rw [byteLength_append]
      omega
    · simp only [byteLength_append]
      omega
  · rintro ⟨front, back, hscan, hbegin, hend⟩
    obtain ⟨l₁, l₂, hl₁, hl₂, htoken, hbefore, hafter⟩ := exists_seam hscan.text_eq hbegin hend
    exact ⟨front, l₁, l₂, back, hl₁, hl₂, htoken, hbefore, hafter, hscan⟩

/-- The length of a joined text: its pieces, and a separator for every piece but one. -/
private theorem byteLength_intercalate (separator : List Char) {pieces : List (List Char)}
    (hne : pieces ≠ []) :
    byteLength (separator.intercalate pieces) =
      byteLength pieces.flatten + (pieces.length - 1) * byteLength separator := by
  induction pieces with
  | nil => exact absurd rfl hne
  | cons piece rest ih =>
    cases rest with
    | nil => simp
    | cons next more =>
      have hrest := ih (List.cons_ne_nil _ _)
      rw [List.length_cons, Nat.add_sub_cancel] at hrest
      have hflat : byteLength (piece :: next :: more).flatten =
          byteLength piece + byteLength (next :: more).flatten := byteLength_append _ _
      rw [List.intercalate_cons_cons, byteLength_append, byteLength_append, hrest, hflat,
        List.length_cons, List.length_cons, Nat.add_sub_cancel, Nat.succ_mul]
      omega

/-- Replacing takes the length of the token off for every match and puts the length of the new text
    in its place. -/
theorem byteLength_replace {token : List Char} (hne : token ≠ []) (new cs : List Char) :
    byteLength cs - matchCount token cs * byteLength token + matchCount token cs * byteLength new =
      byteLength (replace token new cs) := by
  have hpieces : cut token cs ≠ [] := cutFrom_ne_nil token 0 cs
  -- The text itself is its pieces joined by the token
  have hold := byteLength_intercalate token hpieces
  rw [intercalate_cut hne] at hold
  rw [replace, byteLength_intercalate new hpieces, hold, matchCount, Nat.add_sub_cancel]

/-- A position behind an initial part is good when what is left of it is good in the rest. -/
theorem splitAtByte?_byteLength_add (cs ds : List Char) (n : Nat) :
    splitAtByte? (byteLength cs + n) (cs ++ ds) =
      (splitAtByte? n ds).map fun (before, after) => (cs ++ before, after) := by
  induction cs with
  | nil => simp
  | cons c cs ih =>
    have hsize := c.utf8Size_pos
    obtain ⟨m, hm⟩ : ∃ m, byteLength (c :: cs) + n = m + 1 :=
      ⟨byteLength (c :: cs) + n - 1, by rw [byteLength_cons]; omega⟩
    have hfits : c.utf8Size ≤ m + 1 := by rw [← hm, byteLength_cons]; omega
    have hrest : m + 1 - c.utf8Size = byteLength cs + n := by rw [← hm, byteLength_cons]; omega
    rw [hm, List.cons_append, splitAtByte?, if_pos hfits, hrest, ih, Option.map_map]
    rfl

end Stencil.Text
