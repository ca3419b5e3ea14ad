import Stencil.Proofs.Text.Joined

/-!
# Replacement across a seam

The matches of a token are found from left to right, so a match that begins before a position can
reach over it and shift every match behind.  `overhang` follows the scan to a position and says how
far the last match reaches over.  Where it is zero the scan starts afresh at the position: cutting,
and with it replacing, works on both parts separately.

## Key results

- `cutFrom_append`: without overhang the pieces of a text are the pieces of its parts, fused
- `replace_append`: without overhang the parts are replaced separately
- `replace_at_first`: the first match is replaced, and then the matches behind it
- `infix_append_iff_of_not_straddles`: where no occurrence straddles the seam, the token occurs in one
  of the parts or not at all
-/

namespace Stencil.Text

/-! ## The scan up to a seam -/

/-- How many characters of `after` are covered by a match that the scan of `before ++ after` begins
    in `before`.  The first `skip` characters of `before` belong to a match already found. -/
def overhang (token : List Char) : Nat → List Char → List Char → Nat
  | skip, [], _ => skip
  | skip + 1, _ :: before, after => overhang token skip before after
  | 0, c :: before, after =>
    if token.isPrefixOf (c :: (before ++ after)) then overhang token (token.length - 1) before after
    else overhang token 0 before after

/-- Puts the pieces of two neighbouring texts together: the last piece of the first text and the
    first piece of the second become one. -/
def fuse : List (List Char) → List (List Char) → List (List Char)
  | [], ys => ys
  | [x], ys => ys.modifyHead (x ++ ·)
  | x :: x' :: xs, ys => x :: fuse (x' :: xs) ys

/-- A match under way is not ended before its last character. -/
theorem le_length_add_overhang (token : List Char) (skip : Nat) (before after : List Char) :
    skip ≤ before.length + overhang token skip before after := by
  -- Each skipped character takes one off `skip`, so it runs out inside `before` or is left over
  induction before generalizing skip with
  | nil => simp [overhang]
  | cons c before ih =>
    cases skip with
    | zero => exact Nat.zero_le _
    | succ skip =>
      have := ih skip
      simp only [overhang, List.length_cons]
      omega

/-- A character joins the first of the fused pieces. -/
private theorem fuse_modifyHead (f : List Char → List Char) (hf : ∀ x y, f (x ++ y) = f x ++ y)
    {xs : List (List Char)} (hxs : xs ≠ []) (ys : List (List Char)) :
    fuse (xs.modifyHead f) ys = (fuse xs ys).modifyHead f := by
  match xs, hxs with
  | [x], _ =>
    cases ys with
    | nil => rfl
    | cons y ys => simp [fuse, hf]
  | x :: x' :: xs, _ => rfl

/-- A piece in front stays in front. -/
private theorem fuse_cons (x : List Char) {xs : List (List Char)} (hxs : xs ≠ [])
    (ys : List (List Char)) : fuse (x :: xs) ys = x :: fuse xs ys := by
  match xs, hxs with
  | _ :: _, _ => rfl

/-- Without overhang the scan starts afresh at the seam. -/
theorem cutFrom_append {token : List Char} {skip : Nat} {before : List Char} (after : List Char)
    (h : overhang token skip before after = 0) :
    cutFrom token skip (before ++ after) = fuse (cutFrom token skip before) (cut token after) := by
  induction before generalizing skip with
  | nil =>
    obtain rfl : skip = 0 := h
    obtain ⟨first, others, hcut⟩ := List.exists_cons_of_ne_nil (cutFrom_ne_nil token 0 after)
    simp [cut, cutFrom, fuse, hcut]
  | cons c before ih =>
    cases skip with
    | succ skip => exact ih h
    | zero =>
      rw [overhang] at h
      rw [List.cons_append, cutFrom, cutFrom]
      by_cases hmatch : token.isPrefixOf (c :: (before ++ after))
      · -- The match ends before the seam, so it is a match of the first part alone.
        rw [if_pos hmatch] at h ⊢
        have hlength : token.length ≤ (c :: before).length := by
          have := le_length_add_overhang token (token.length - 1) before after
          rw [h] at this
          simp only [List.length_cons]
          omega
        have hinner : token.isPrefixOf (c :: before) := by
          rw [List.isPrefixOf_iff_prefix] at hmatch ⊢
          exact List.prefix_of_prefix_length_le hmatch (List.prefix_append (c :: before) after)
            hlength
        rw [if_pos hinner, ih h, fuse_cons _ (cutFrom_ne_nil _ _ _)]
      · -- No match of the whole text, so none of the first part alone
        rw [if_neg hmatch] at h ⊢
        have hinner : ¬ token.isPrefixOf (c :: before) := by
          rw [List.isPrefixOf_iff_prefix] at hmatch ⊢
          exact fun hpre => hmatch (hpre.trans (List.prefix_append (c :: before) after))
        rw [if_neg hinner, ih h, fuse_modifyHead _ (fun _ _ => rfl) (cutFrom_ne_nil _ _ _)]

/-- Joining fused pieces joins both texts. -/
theorem intercalate_fuse (new : List Char) {xs ys : List (List Char)} (hxs : xs ≠ [])
    (hys : ys ≠ []) : new.intercalate (fuse xs ys) = new.intercalate xs ++ new.intercalate ys := by
  induction xs with
  | nil => exact absurd rfl hxs
  | cons x xs ih =>
    obtain ⟨y, ys, rfl⟩ := List.exists_cons_of_ne_nil hys
    cases xs with
    | nil => cases ys <;> simp [fuse]
    | cons x' xs =>
      have hfused : fuse (x' :: xs) (y :: ys) ≠ [] := by cases xs <;> simp [fuse]
      rw [fuse, List.intercalate_cons_of_ne_nil hfused, ih (List.cons_ne_nil _ _),
        List.intercalate_cons_cons]
      simp only [List.append_assoc]

/-- Without overhang both parts of a text are replaced separately. -/
theorem replace_append {token before : List Char} (new after : List Char)
    (h : overhang token 0 before after = 0) :
    replace token new (before ++ after) = replace token new before ++ replace token new after := by
  unfold replace
  rw [show cut token (before ++ after) = fuse (cut token before) (cut token after) from
    cutFrom_append after h]
  exact intercalate_fuse new (cutFrom_ne_nil _ _ _) (cutFrom_ne_nil _ _ _)

/-- The first match is replaced, and then the matches behind it. -/
theorem replace_at_first {token before after : List Char} (new : List Char) (hne : token ≠ [])
    (hfirst : ∀ tail, tail ≠ [] → tail <:+ before → ¬ token <+: tail ++ (token ++ after)) :
    replace token new (before ++ (token ++ after)) =
      before ++ (new ++ replace token new after) := by
  have hpieces : cut token after ≠ [] := cutFrom_ne_nil token 0 after
  unfold replace
  rw [cut_at_first hne hfirst, List.intercalate_cons_of_ne_nil hpieces, List.append_assoc]

/-! ## Occurrences that straddle a seam -/

/-- An occurrence of a token that begins in one text and ends in the text behind it. -/
def Straddles (token before after : List Char) : Prop :=
  ∃ l₁ l₂, l₁ ≠ [] ∧ l₂ ≠ [] ∧ token = l₁ ++ l₂ ∧ l₁ <:+ before ∧ l₂ <+: after

/-- A token occurs in a text when it occurs in a part of it, or straddles the seam of the parts. -/
theorem infix_append_iff_straddles (token before after : List Char) :
    token <:+: before ++ after ↔
      token <:+: before ∨ token <:+: after ∨ Straddles token before after :=
  List.infix_append_iff_ne_nil

/-- Where no occurrence straddles the seam, a token occurs in one of the parts or not at all. -/
theorem infix_append_iff_of_not_straddles {token before after : List Char}
    (h : ¬ Straddles token before after) :
    token <:+: before ++ after ↔ token <:+: before ∨ token <:+: after := by
  rw [infix_append_iff_straddles, ← or_assoc, or_iff_left h]

/-- Where a token does not occur, nothing is replaced. -/
theorem replace_of_not_occurs {token cs : List Char} (new : List Char) (h : ¬ token <:+: cs) :
    replace token new cs = cs := by
  unfold replace
  rw [cut_of_not_occurs h, List.intercalate_singleton]

end Stencil.Text
