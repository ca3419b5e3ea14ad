/-! # Occurrences of a token

The matches of a token in a text are found from left to right and do not overlap.  `cut` gives the
pieces between them; counting and replacing are read off the pieces.

* `intercalate_cut`: joining the pieces with the token restores the text;
* `occurs_iff`: a token occurs in a text when the text can be cut around it.
-/

namespace Stencil.Text

/-- Whether a token stands somewhere in a text. -/
def occurs (token : List Char) : List Char → Bool
  | [] => token.isEmpty
  | c :: cs => token.isPrefixOf (c :: cs) || occurs token cs

/-- The pieces of a text whose first `skip` characters belong to a match already found. -/
def cutFrom (token : List Char) : Nat → List Char → List (List Char)
  | _, [] => [[]]
  | skip + 1, _ :: cs => cutFrom token skip cs
  | 0, c :: cs =>
    if token.isPrefixOf (c :: cs) then [] :: cutFrom token (token.length - 1) cs
    else (cutFrom token 0 cs).modifyHead (c :: ·)

/-- The pieces of a text between the matches of a token. -/
def cut (token cs : List Char) : List (List Char) := cutFrom token 0 cs

/-- The number of matches of a token. -/
def matchCount (token cs : List Char) : Nat := (cut token cs).length - 1

/-- A text with every match of a token replaced. -/
def replace (token new cs : List Char) : List Char := new.intercalate (cut token cs)

/-- There is always a piece. -/
theorem cutFrom_ne_nil (token : List Char) (skip : Nat) (cs : List Char) :
    cutFrom token skip cs ≠ [] := by
  induction cs generalizing skip with
  | nil => simp [cutFrom]
  | cons c cs ih =>
    cases skip with
    | succ n => exact ih n
    | zero =>
      unfold cutFrom
      split
      · simp
      · cases h : cutFrom token 0 cs with
        | nil => exact absurd h (ih 0)
        | cons p ps => simp

/-- Joining the pieces restores what is not skipped. -/
theorem intercalate_cutFrom {token : List Char} (h : token ≠ []) (skip : Nat) (cs : List Char) :
    token.intercalate (cutFrom token skip cs) = cs.drop skip := by
  induction cs generalizing skip with
  | nil => simp [cutFrom]
  | cons c cs ih =>
    cases skip with
    | succ n => simpa [cutFrom] using ih n
    | zero =>
      unfold cutFrom
      split
      · rename_i isMatch
        -- A match: the token, then what is left behind it.
        obtain ⟨rest, whole⟩ := List.isPrefixOf_iff_prefix.1 isMatch
        have restored := ih (token.length - 1)
        obtain ⟨piece, pieces, pieces_eq⟩ :=
          List.exists_cons_of_ne_nil (cutFrom_ne_nil token (token.length - 1) cs)
        rw [pieces_eq] at restored ⊢
        rw [List.intercalate_cons_cons, restored]
        have first : token = c :: token.tail := by
          cases token with
          | nil => exact absurd rfl h
          | cons d ds => simp at whole ⊢; exact whole.1
        have tail : cs = token.tail ++ rest := by
          rw [first] at whole
          simpa using whole.symm
        rw [tail, show token.length - 1 = token.tail.length by simp]
        simp only [List.drop_left, List.nil_append, List.drop_zero]
        conv => lhs; rw [first]
        rfl
      · -- No match: the character joins the first piece.
        have restored := ih 0
        obtain ⟨piece, pieces, pieces_eq⟩ :=
          List.exists_cons_of_ne_nil (cutFrom_ne_nil token 0 cs)
        rw [pieces_eq] at restored ⊢
        rw [List.modifyHead_cons]
        cases pieces with
        | nil => simpa using restored
        | cons next rest =>
          rw [List.intercalate_cons_cons] at restored ⊢
          simpa using restored

/-- A token occurs where a text can be cut around it. -/
theorem occurs_iff {token cs : List Char} : occurs token cs ↔ token <:+: cs := by
  induction cs with
  | nil => simp [occurs]
  | cons c cs ih => simp [occurs, List.infix_cons_iff, ih]

/-- Joining the pieces with the token restores the text. -/
theorem intercalate_cut {token : List Char} (h : token ≠ []) (cs : List Char) :
    token.intercalate (cut token cs) = cs := intercalate_cutFrom h 0 cs

/-- Replacing a token by itself changes nothing. -/
theorem replace_self {token : List Char} (h : token ≠ []) (cs : List Char) :
    replace token token cs = cs := intercalate_cut h cs

end Stencil.Text
