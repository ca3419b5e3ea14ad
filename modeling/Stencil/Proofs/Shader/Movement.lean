import Stencil.Proofs.Shader.Editing
import Stencil.Proofs.Text.Matches

/-!
# How a substitution moves the cursor

A substitution moves the cursor by the matches in the text before it, and counts them in that text
alone.  They are the matches of the whole text that end at or before the cursor, so what is taken off
for them stands before the cursor.  The cursor comes to rest behind what replaces the last of them,
as far behind it as it was before.  A match that straddles the cursor is not among them, although it
is replaced as well.

## Key results

- `movedCursor_eq`: the moved cursor, from the part up to the last match before it
- `substitute_moves_cursor`: which matches move the cursor of a substitution, and where to
-/

namespace Stencil.Template

open Text

/-- The moved cursor stands behind the replaced part up to the last match before it, and the characters
    between that match and the cursor. -/
theorem movedCursor_eq {token before done rest : List Char} (new : List Char) (hne : token ≠ [])
    (hparts : before = done ++ rest)
    (hdone : done = [] ∨ ∃ front, done = front ++ token ∧ Scanned token before front rest)
    (hrest : ¬ token <:+: rest) :
    movedCursor (byteLength before) token new before =
      byteLength (replace token new done) + byteLength rest := by
  have hmoved : movedCursor (byteLength before) token new before =
      byteLength (replace token new before) := byteLength_replace hne new before
  rw [hmoved, replace_behind_match new hne hparts hdone, replace_of_not_occurs new hrest,
    byteLength_append]

/-- The matches in the text before the cursor are as many as the matches of the whole text that end at
    or before the cursor, and these are matches that a substitution replaces.  Together they are not
    longer than the text before the cursor.  So the text before the cursor is a part that ends with
    the last of them and a rest, and the moved cursor is the length of the part when it is replaced
    and of the rest as it was; the replaced part is the beginning of the replaced text. -/
theorem substitute_moves_cursor (text : String) (dialect : Dialect) (cursor : Nat)
    (token new : String) {before after : List Char} (hne : token.toList ≠ [])
    (hsplit : splitAtByte? cursor text.toList = some (before, after)) :
    {m ∈ scanMatches token.toList text.toList |
      byteLength (m.1 ++ token.toList) ≤ cursor}.encard = matchCount token.toList before ∧
    (∀ m ∈ scanMatches token.toList text.toList,
      replace token.toList new.toList text.toList = replace token.toList new.toList m.1 ++
        (new.toList ++ replace token.toList new.toList m.2)) ∧
    matchCount token.toList before * byteLength token.toList ≤ cursor ∧
    ∃ done rest, before = done ++ rest ∧ EndsLastMatch token.toList text.toList cursor done ∧
      movedCursor cursor token.toList new.toList before =
        byteLength (replace token.toList new.toList done) + byteLength rest ∧
      (token.toList <:+: text.toList → ∃ t, substitute ⟨text, dialect, cursor⟩ token new = .ok t ∧
        t.text.toList = replace token.toList new.toList text.toList ∧
        t.text.toList = replace token.toList new.toList done ++
          replace token.toList new.toList (rest ++ after) ∧
        t.cursor = byteLength (replace token.toList new.toList done) + byteLength rest) := by
  obtain ⟨htext, rfl⟩ := splitAtByte?_eq_some_iff.1 hsplit
  rw [htext]
  refine ⟨encard_scanMatches_within hne before after,
    fun m hm => replace_scanned new.toList hne (mem_scanMatches.1 hm),
    matchCount_mul_le hne before, ?_⟩
  obtain ⟨done, rest, hparts, hlast, hdone, hrest⟩ := exists_endsLastMatch hne before after
  have hmoved := movedCursor_eq new.toList hne hparts hdone hrest
  refine ⟨done, rest, hparts, hlast, hmoved, fun hoccurs => ?_⟩
  have hcut : CutAt ⟨text, dialect, byteLength before⟩ before after := ⟨htext, rfl⟩
  refine ⟨_, substitute_eq_ok hcut hne hoccurs new, String.toList_ofList, ?_, ?_⟩
  · -- The last match of the text before the cursor is a match of the whole text
    have hwhole : before ++ after = done ++ (rest ++ after) := by rw [hparts, List.append_assoc]
    have hdone' : done = [] ∨ ∃ front, done = front ++ token.toList ∧
        Scanned token.toList (before ++ after) front (rest ++ after) := by
      simpa only [scanned_append_iff] using hdone
    rw [String.toList_ofList, replace_behind_match new.toList hne hwhole hdone']
  · rw [← hmoved]
    exact (byteLength_replace hne new.toList before).symm

/-- The token overlaps itself and its second match straddles the cursor, so only the first one moves
    it. -/
theorem substitute_moves_cursor_overlapping :
    "aa".toList ≠ [] ∧ splitAtByte? 5 "éaaaa".toList = some ("éaaa".toList, "a".toList) ∧
    {m ∈ scanMatches "aa".toList "éaaaa".toList | byteLength (m.1 ++ "aa".toList) ≤ 5}.encard = 1 ∧
    ∃ done rest, "éaaa".toList = done ++ rest ∧
      EndsLastMatch "aa".toList "éaaaa".toList 5 done ∧
      substitute ⟨"éaaaa", .glsl, 5⟩ "aa" "xyz" = .ok ⟨"éxyzxyz", .glsl, 6⟩ ∧
      6 = byteLength (replace "aa".toList "xyz".toList done) + byteLength rest := by
  have hne : "aa".toList ≠ [] := by decide
  have hsplit : splitAtByte? 5 "éaaaa".toList = some ("éaaa".toList, "a".toList) := by decide
  have hcount : matchCount "aa".toList "éaaa".toList = 1 := by decide
  have hresult : substitute ⟨"éaaaa", .glsl, 5⟩ "aa" "xyz" = .ok ⟨"éxyzxyz", .glsl, 6⟩ := by rfl
  obtain ⟨hmatches, -, -, done, rest, hparts, hlast, -, hmoves⟩ :=
    substitute_moves_cursor "éaaaa" .glsl 5 "aa" "xyz" hne hsplit
  obtain ⟨t, hrun, -, -, hcursor⟩ := hmoves (by decide)
  obtain rfl := Except.ok.inj (hresult.symm.trans hrun)
  rw [hcount] at hmatches
  exact ⟨hne, hsplit, hmatches, done, rest, hparts, hlast, hresult, hcursor⟩

end Stencil.Template
