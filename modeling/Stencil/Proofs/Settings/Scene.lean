import Stencil.Scene

/-!
# The last writer wins

A descriptor is applied piece by piece.  Up to the first piece that offends, every pair takes the
place of the pairs with its key before it; from there on nothing is looked at.  So the outcome is
read off the pieces at once: the values of the last accepted pairs, and the first offence.

## Key results

- `applyPiece_eq`: what one piece does
- `applyPieces_eq`: what the pieces do, one behind the other
- `apply_eq`: what a descriptor does to settings
-/

namespace Stencil.Scene

open Settings (Key flagOfText?)
open Text

/-! ## Pieces -/

/-- The value that a piece gives to a setting, if it is a pair with the name of the setting. -/
def valueFor? (key : Key) (piece : List Char) : Option String :=
  match splitFirst? '=' piece with
  | some (name, value) =>
    if Key.ofName? (String.ofList name) = some key then some (String.ofList value) else none
  | none => none

/-- What is wrong with a piece: its key is unknown, its value is no flag, or it is no pair and does
    not stand at the head. -/
def offence? (isHead : Bool) (piece : List Char) : Option Settings.Error :=
  match splitFirst? '=' piece with
  | some (name, value) =>
    match Key.ofName? (String.ofList name) with
    | some .matrix => none
    | some .normalize =>
      if (flagOfText? (String.ofList value)).isSome then none
      else some (.invalidOption (String.ofList name) (String.ofList value))
    | none => some (.unknownOption (String.ofList (trim name)))
  | none =>
    if piece.isEmpty || isHead then none else some (.invalidOption (String.ofList piece) "")

/-- The pieces in front of the first one that offends. -/
def accepted (isHead : Bool) : List (List Char) → List (List Char)
  | [] => []
  | piece :: rest => if (offence? isHead piece).isSome then [] else piece :: accepted false rest

/-- What is wrong with the first piece that offends. -/
def firstOffence? (isHead : Bool) : List (List Char) → Option Settings.Error
  | [] => none
  | piece :: rest => (offence? isHead piece).or (firstOffence? false rest)

/-- The value of the last pair with the name of a setting. -/
def lastValue? (key : Key) (pieces : List (List Char)) : Option String :=
  (pieces.filterMap (valueFor? key)).getLast?

/-- Settings with the values of the last pairs. -/
def assign (pieces : List (List Char)) (s : Settings) : Settings :=
  ⟨(lastValue? .matrix pieces).getD s.matrix,
    ((lastValue? .normalize pieces).bind flagOfText?).getD s.normalize⟩

/-! ## One piece -/

/-- A piece that does not offend gives its value to its setting; one that does changes nothing. -/
theorem applyPiece_eq (s : Settings) (isHead : Bool) (piece : List Char) :
    applyPiece s isHead piece =
      match offence? isHead piece with
      | some cause => .error cause
      | none => .ok (assign [piece] s) := by
  cases piece with
  | nil => cases isHead <;> rfl
  | cons c cs =>
    unfold applyPiece offence? assign lastValue?
    simp only [List.isEmpty_cons, Bool.false_eq_true, ↓reduceIte, Bool.false_or,
      List.filterMap_cons, List.filterMap_nil, valueFor?]
    cases splitFirst? '=' (c :: cs) with
    | none => cases isHead <;> rfl
    | some pair =>
      obtain ⟨name, value⟩ := pair
      dsimp only
      unfold Settings.set
      cases hkey : Key.ofName? (String.ofList name) with
      | none => simp
      | some key =>
        cases key with
        | matrix => simp
        | normalize =>
          cases hflag : flagOfText? (String.ofList value) with
          | none => simp
          | some flag => simp [hflag]

/-! ## Several pieces -/

/-- The only value is the last one. -/
private theorem lastValue?_singleton (key : Key) (piece : List Char) :
    lastValue? key [piece] = valueFor? key piece := by
  cases h : valueFor? key piece with
  | none => simp [lastValue?, h]
  | some value => simp [lastValue?, h]

/-- The last value is that of the later pieces, if they have one. -/
theorem lastValue?_cons (key : Key) (piece : List Char) (rest : List (List Char)) :
    lastValue? key (piece :: rest) = (lastValue? key rest).or (valueFor? key piece) := by
  rw [← lastValue?_singleton, lastValue?, lastValue?, lastValue?, ← List.singleton_append,
    List.filterMap_append, List.getLast?_append]

/-- A piece that does not offend gives a flag to `normalize`, if it gives anything. -/
private theorem isSome_flag_of_offence?_eq_none {isHead : Bool} {piece : List Char} {value : String}
    (hnone : offence? isHead piece = none) (hvalue : valueFor? .normalize piece = some value) :
    (flagOfText? value).isSome := by
  unfold valueFor? at hvalue
  unfold offence? at hnone
  cases hsplit : splitFirst? '=' piece with
  | none => simp [hsplit] at hvalue
  | some pair =>
    obtain ⟨name, text⟩ := pair
    simp only [hsplit] at hvalue hnone
    split at hvalue
    · rename_i hkey
      rw [← Option.some.inj hvalue]
      simpa [hkey, Option.isSome_iff_ne_none] using hnone
    · exact absurd hvalue (by simp)

/-- The last value that accepted pieces give to `normalize` is a flag. -/
private theorem isSome_flag_of_accepted {isHead : Bool} {pieces : List (List Char)} {value : String}
    (h : lastValue? .normalize (accepted isHead pieces) = some value) :
    (flagOfText? value).isSome := by
  induction pieces generalizing isHead with
  | nil => exact absurd h (by simp [accepted, lastValue?])
  | cons piece rest ih =>
    unfold accepted at h
    split at h
    · exact absurd h (by simp [lastValue?])
    · rename_i hnone
      rw [lastValue?_cons, Option.or_eq_some_iff] at h
      rcases h with hrest | ⟨-, hpiece⟩
      · exact ih hrest
      · exact isSome_flag_of_offence?_eq_none (Option.not_isSome_iff_eq_none.1 hnone) hpiece

/-- Pieces give their values one behind the other, if what they give to `normalize` is a flag. -/
private theorem assign_cons {piece : List Char} {rest : List (List Char)} (s : Settings)
    (hflag : ∀ value, lastValue? .normalize rest = some value → (flagOfText? value).isSome) :
    assign (piece :: rest) s = assign rest (assign [piece] s) := by
  unfold assign
  simp only [lastValue?_cons _ piece rest, lastValue?_singleton, Settings.mk.injEq]
  constructor
  · cases lastValue? .matrix rest <;> rfl
  · cases hlast : lastValue? .normalize rest with
    | none => rfl
    | some value =>
      obtain ⟨flag, hvalue⟩ := Option.isSome_iff_exists.1 (hflag value hlast)
      simp [hvalue]

/-- Applying pieces from left to right gives the values of the last accepted pairs, and reports the
    first offence. -/
theorem applyPieces_eq (s : Settings) (isHead : Bool) (pieces : List (List Char)) :
    applyPieces s isHead pieces =
      (assign (accepted isHead pieces) s, firstOffence? isHead pieces) := by
  induction pieces generalizing s isHead with
  | nil => rfl
  | cons piece rest ih =>
    unfold applyPieces accepted firstOffence?
    rw [applyPiece_eq]
    cases offence? isHead piece with
    | some cause => rfl
    | none =>
      dsimp only
      rw [ih, if_neg (by simp), assign_cons s fun value => isSome_flag_of_accepted]
      rfl

/-! ## A descriptor -/

/-- What is wrong with the first piece of a descriptor that offends. -/
def descriptorOffence? (descriptor : String) : Option Settings.Error :=
  firstOffence? true (pieces descriptor)

/-- A descriptor gives the values of the last pairs in front of its first offence, which is
    reported. -/
theorem apply_eq (descriptor : String) (s : Settings) :
    apply descriptor s =
      (assign (accepted true (pieces descriptor)) s, descriptorOffence? descriptor) :=
  applyPieces_eq s true (pieces descriptor)

/-- A second pair takes the place of the first, and a pair behind an offence is not looked at. -/
example : apply "effect2d:matrix=1:normalize=false:matrix=2:blur:normalize=true" .standard =
    (⟨"2", false⟩, some (.invalidOption "blur" "")) := by decide

/-- Without offence all pieces are accepted. -/
theorem accepted_of_firstOffence?_eq_none {isHead : Bool} {pieces : List (List Char)}
    (h : firstOffence? isHead pieces = none) : accepted isHead pieces = pieces := by
  induction pieces generalizing isHead with
  | nil => rfl
  | cons piece rest ih =>
    rw [firstOffence?, Option.or_eq_none_iff] at h
    rw [accepted, h.1, ih h.2]
    rfl

end Stencil.Scene
