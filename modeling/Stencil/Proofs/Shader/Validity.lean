import Stencil.Proofs.Shader.Editing

/-!
# Where the cursor can stand

After a substitution the cursor stands behind what the text before it became.  If a match that
straddled the cursor was replaced, this is inside or behind the new text, as many bytes behind its
start as the match had before the cursor, and that may be inside a character or past the end of the
text.  Such an edit loses the cursor.  No edit finds it again: an insertion then is abandoned, and so
is every substitution that is not refused.

## Key results

- `perform_valid_iff`: one edit keeps the cursor valid exactly when it does not lose it
- `run_of_not_valid`: a lost cursor stays lost
- `cursor_valid_iff`: exactly the runs in which no edit loses the cursor end with a valid one
- `cursor_not_always_valid`: an insertion, a substitution over the cursor, and nothing can be
  inserted any more
-/

namespace Stencil.Template

open Text

/-- The cursor of a template stands between two characters, or at an end of the text. -/
def Valid (t : Template) : Prop := ∃ before after, t.CutAt before after

/-- An edit replaces a match that straddles the cursor, and the new text with what follows cannot be
    cut as many bytes behind its start as the match has before the cursor. -/
def Edit.LosesCursor (t : Template) : Edit → Prop
  | .insert _ => False
  | .declare _ _ => False
  | .substitute token new => ∃ front back, Scanned token.toList t.text.toList front back ∧
      byteLength front < t.cursor ∧ t.cursor < byteLength (front ++ token.toList) ∧
      splitAtByte? (t.cursor - byteLength front)
        (new.toList ++ replace token.toList new.toList back) = none

/-! ## Good positions -/

/-- A cursor is valid when the text can be cut there. -/
theorem valid_iff {t : Template} :
    t.Valid ↔ ∃ before after, splitAtByte? t.cursor t.text.toList = some (before, after) := by
  constructor
  · intro h
    obtain ⟨before, after, hcut⟩ := h
    exact ⟨before, after, hcut.splitAtByte?⟩
  · intro h
    obtain ⟨before, after, hsplit⟩ := h
    obtain ⟨htext, hlength⟩ := splitAtByte?_eq_some_iff.1 hsplit
    exact ⟨before, after, htext, hlength.symm⟩

/-- At a position that is not good a text is not cut. -/
theorem splitAtByte?_of_not_valid {t : Template} (h : ¬ t.Valid) :
    splitAtByte? t.cursor t.text.toList = none := by
  rw [valid_iff] at h
  cases hsplit : splitAtByte? t.cursor t.text.toList with
  | none => rfl
  | some parts => exact absurd ⟨parts.1, parts.2, hsplit⟩ h

/-! ## One edit -/

/-- When a straddling match was replaced, the position behind the replaced first part is good exactly
    when the new text with what follows can be cut behind the share of the first part. -/
private theorem valid_replaced_iff {token front l₁ l₂ back new : List Char} {dialect : Dialect}
    (hl₂ : l₂ ≠ []) (htoken : token = l₁ ++ l₂)
    (hscan : Scanned token (front ++ l₁ ++ (l₂ ++ back)) front back) :
    Valid ⟨String.ofList (replace token new (front ++ l₁ ++ (l₂ ++ back))), dialect,
        byteLength (replace token new (front ++ l₁))⟩ ↔
      splitAtByte? (byteLength l₁) (new ++ replace token new back) ≠ none := by
  have hne : token ≠ [] := by simp [htoken, hl₂]
  rw [valid_iff, String.toList_ofList, replace_scanned new hne hscan,
    replace_before_scanned new hl₂ htoken hscan, byteLength_append, splitAtByte?_byteLength_add]
  cases splitAtByte? (byteLength l₁) (new ++ replace token new back) with
  | none => simp
  | some parts => simp

/-- A substitution that is not refused keeps the cursor valid exactly when it does not lose it. -/
private theorem substitute_valid_iff {t : Template} {before after : List Char}
    (hcut : t.CutAt before after) (token new : String) :
    Valid { t with
        text := String.ofList (replace token.toList new.toList (before ++ after))
        cursor := byteLength (replace token.toList new.toList before) } ↔
      ¬ (Edit.substitute token new).LosesCursor t := by
  constructor
  · -- What the definition of a loss says about bytes is a straddling match
    intro hvalid hloses
    obtain ⟨front, back, hscan, hbegin, hend, hnone⟩ := hloses
    rw [hcut.text_eq] at hscan
    rw [hcut.cursor_eq] at hbegin hend hnone
    obtain ⟨l₁, l₂, hl₁, hl₂, htoken, rfl, rfl⟩ := exists_seam hscan.text_eq hbegin hend
    rw [valid_replaced_iff hl₂ htoken hscan] at hvalid
    rw [byteLength_append, Nat.add_sub_cancel_left] at hnone
    exact hvalid hnone
  · intro hkeeps
    by_cases hstraddles : MatchStraddles token.toList before after
    · obtain ⟨front, l₁, l₂, back, hl₁, hl₂, htoken, rfl, rfl, hscan⟩ := hstraddles
      have hpos₁ := byteLength_pos hl₁
      have hpos₂ := byteLength_pos hl₂
      rw [valid_replaced_iff hl₂ htoken hscan]
      intro hnone
      apply hkeeps
      refine ⟨front, back, by rwa [hcut.text_eq], ?_, ?_, ?_⟩
      · rw [hcut.cursor_eq, byteLength_append]
        omega
      · rw [hcut.cursor_eq, htoken]
        simp only [byteLength_append]
        omega
      · rwa [hcut.cursor_eq, byteLength_append, Nat.add_sub_cancel_left]
    · -- Without a straddling match the second part begins where the replaced first part ends
      have hzero := overhang_eq_zero_iff.2 hstraddles
      rw [replace_append new.toList after hzero]
      exact ⟨_, _, String.toList_ofList, rfl⟩

/-- An edit that does not find the token loses nothing. -/
private theorem not_losesCursor_of_refused {t : Template} {before after : List Char}
    (hcut : t.CutAt before after) {token new : String}
    (hrefused : token.toList = [] ∨ ¬ token.toList <:+: before ++ after) :
    ¬ (Edit.substitute token new).LosesCursor t := by
  intro hloses
  obtain ⟨front, back, hscan, hbegin, hend, -⟩ := hloses
  rcases hrefused with hnil | hnone
  · rw [hnil, List.append_nil] at hend
    omega
  · apply hnone
    rw [← hcut.text_eq, hscan.text_eq]
    exact List.infix_append' front token.toList back

/-- At a valid cursor an edit is not abandoned, and it keeps the cursor valid exactly when it does
    not lose it. -/
theorem perform_valid_iff {t : Template} (h : t.Valid) (e : Edit) :
    ∃ t' answer, t.perform e = .ok (t', answer) ∧ (t'.Valid ↔ ¬ e.LosesCursor t) := by
  obtain ⟨before, after, hcut⟩ := h
  cases e with
  | insert addition =>
    obtain ⟨t', hperform, -, hcut'⟩ := exists_perform_of_addition (e := .insert addition) hcut rfl
    exact ⟨t', none, hperform, iff_of_true ⟨_, _, hcut'⟩ id⟩
  | declare name value =>
    obtain ⟨t', hperform, -, hcut'⟩ := exists_perform_of_addition (e := .declare name value) hcut rfl
    exact ⟨t', none, hperform, iff_of_true ⟨_, _, hcut'⟩ id⟩
  | substitute token new =>
    by_cases hrefused : token.toList = [] ∨ ¬ token.toList <:+: before ++ after
    · refine ⟨t, some (.missingPlaceholder token), ?_, ?_⟩
      · rw [perform, substitute_eq_refused hcut hrefused]
      · exact iff_of_true ⟨_, _, hcut⟩ (not_losesCursor_of_refused hcut hrefused)
    · rw [not_or, Classical.not_not] at hrefused
      refine ⟨_, none, ?_, substitute_valid_iff hcut token new⟩
      rw [perform, substitute_eq_ok hcut hrefused.1 hrefused.2 new]

/-! ## A lost cursor -/

/-- At a lost cursor every insertion is abandoned. -/
theorem insert_of_not_valid {t : Template} (h : ¬ t.Valid) (addition : String) :
    t.insert addition = .error .badPosition := by
  rw [insert, splitAtByte?_of_not_valid h]

/-- At a lost cursor a substitution is refused or abandoned. -/
private theorem substitute_of_not_valid {t : Template} (h : ¬ t.Valid) (token new : String) :
    t.substitute token new = .error (.refused (.missingPlaceholder token)) ∨
      t.substitute token new = .error (.fault .badPosition) := by
  rw [substitute, splitAtByte?_of_not_valid h]
  split
  · exact Or.inl rfl
  · exact Or.inr rfl

/-- At a lost cursor nothing changes any more: what is not refused is abandoned. -/
theorem perform_of_not_valid {t t' : Template} (h : ¬ t.Valid) {e : Edit}
    {answer : Option Shader.Error} (hperform : t.perform e = .ok (t', answer)) : t' = t := by
  cases e with
  | insert addition => simp [perform, insert_of_not_valid h, Except.map] at hperform
  | declare name value =>
    simp [perform, declare, insert_of_not_valid h, Except.map, bind, Except.bind] at hperform
  | substitute token new =>
    rcases substitute_of_not_valid h token new with hrefused | habandoned
    · simp only [perform, hrefused, Except.ok.injEq, Prod.mk.injEq] at hperform
      exact hperform.1.symm
    · simp [perform, habandoned] at hperform

/-- A lost cursor stays lost. -/
theorem run_of_not_valid {t last : Template} (h : ¬ t.Valid) {edits : List Edit}
    {answers : List (Option Shader.Error)} (hrun : t.run edits = .ok (last, answers)) :
    ¬ last.Valid := by
  induction edits generalizing answers with
  | nil =>
    obtain ⟨rfl, -⟩ := Prod.mk.inj (Except.ok.inj hrun)
    exact h
  | cons e es ih =>
    obtain ⟨t', answer, others, hperform, hrest, -⟩ := exists_run_of_cons hrun
    obtain rfl := perform_of_not_valid h hperform
    exact ih hrest

/-! ## Runs -/

/-- From a valid cursor a run ends with a valid one exactly when no edit of it loses the cursor. -/
private theorem run_valid_iff {t : Template} (h : t.Valid) (edits : List Edit) :
    (∃ last answers, t.run edits = .ok (last, answers) ∧ last.Valid) ↔
      Along (fun t e => ¬ e.LosesCursor t) t edits := by
  induction edits generalizing t with
  | nil => exact iff_of_true ⟨t, [], rfl, h⟩ (along_nil _ t)
  | cons e es ih =>
    obtain ⟨t', answer, hperform, hvalid⟩ := perform_valid_iff h e
    rw [along_cons_iff hperform, ← hvalid]
    constructor
    · intro hends
      obtain ⟨last, answers, hrun, hlast⟩ := hends
      obtain ⟨next, _, others, hfirst, hrest, -⟩ := exists_run_of_cons hrun
      obtain ⟨rfl, -⟩ := Prod.mk.inj (Except.ok.inj (hperform.symm.trans hfirst))
      -- A cursor that the first edit had lost would still be lost at the end
      have hkept : t'.Valid := Classical.not_not.1 fun hlost => run_of_not_valid hlost hrest hlast
      exact ⟨hkept, (ih hkept).1 ⟨last, others, hrest, hlast⟩⟩
    · intro hkeeps
      obtain ⟨last, others, hrest, hlast⟩ := (ih hkeeps.1).2 hkeeps.2
      refine ⟨last, answer :: others, ?_, hlast⟩
      rw [run_cons es hperform, hrest]
      rfl

/-- A run of edits of a fresh template is not abandoned and ends with a valid cursor exactly when no
    edit of it loses the cursor: when every match that is replaced over the cursor gives way to a
    text that, with what follows, can be cut where the match was cut. -/
theorem cursor_valid_iff (text : String) (dialect : Dialect) (edits : List Edit) :
    (∃ t answers, (ofText text dialect).run edits = .ok (t, answers) ∧ t.Valid) ↔
      Along (fun t e => ¬ e.LosesCursor t) (ofText text dialect) edits := by
  obtain ⟨after, hsplit⟩ := splitAtByte?_preambleEnd text.toList
  exact run_valid_iff ⟨_, after, cutAt_ofText dialect hsplit⟩ edits

/-- A run can be abandoned: the cursor stood inside the match, and then inside its replacement. -/
theorem cursor_not_always_valid :
    ¬ ∀ (text : String) (dialect : Dialect) (edits : List Edit),
      ∃ t answers, (ofText text dialect).run edits = .ok (t, answers) ∧ t.Valid := by
  intro halways
  obtain ⟨t, answers, hrun, -⟩ := halways "bX" .glsl [.insert "a", .substitute "ab" "é", .insert ""]
  have habandoned : (ofText "bX" .glsl).run [.insert "a", .substitute "ab" "é", .insert ""] =
      .error .badPosition := by rfl
  rw [habandoned] at hrun
  exact absurd hrun (by simp)

end Stencil.Template
