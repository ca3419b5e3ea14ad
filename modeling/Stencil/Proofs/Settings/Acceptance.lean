import Stencil.Proofs.Settings.Offences

/-!
# Accepted descriptors

A descriptor is accepted when none of its pieces offends.  Said without offences, every piece that is
not blank is a pair that can be set.  The first piece is the exception: it is meant to be the name of
the scene, but any text without `=` is taken for one.  So a setting that lost its value is refused
everywhere but at the head, where it has no effect.

## Key results

- `forall_not_offends_iff`: what a piece is that does not offend
- `sound_iff_follows`: what the pieces are of which none offends
- `parse_succeeds_iff`: which descriptors are accepted, and which of them have the right head
- `valueless_head_accepted`: a descriptor with another head
-/

namespace Stencil.Scene

open Settings (Key flagText)
open Text

/-! ## Pieces -/

/-- A piece that can be set: it gives the matrix a text, or the flag the text of a flag. -/
def IsPair (piece : List Char) : Prop :=
  (∃ value, Gives .matrix piece value) ∨
    ∃ value flag, Gives .normalize piece value ∧ trim value = (flagText flag).toList

/-- A piece that can be set has a `=`. -/
theorem IsPair.mem {piece : List Char} (h : IsPair piece) : '=' ∈ piece := by
  rcases h with ⟨value, name, rfl, -⟩ | ⟨value, flag, ⟨name, rfl, -⟩, -⟩ <;>
    exact List.mem_append_right name List.mem_cons_self

/-- A piece that can be set does not offend. -/
theorem IsPair.not_offends {isHead : Bool} {piece : List Char} {cause : Settings.Error}
    (h : IsPair piece) : ¬ Offends isHead piece cause := by
  rw [← offence?_eq_some_iff]
  rcases h with ⟨value, name, rfl, hfirst, hkey⟩ | ⟨value, flag, ⟨name, rfl, hfirst, hkey⟩, hflag⟩
  · simp [offence?, splitFirst?_pair hfirst, Key.ofName?_eq_some_iff.2 hkey]
  · simp [offence?, splitFirst?_pair hfirst, Key.ofName?_eq_some_iff.2 hkey,
      Settings.flagOfText?_eq_some_iff.2 hflag]

/-- A pair that cannot be set offends. -/
theorem isPair_of_not_offends {isHead : Bool} {name value : List Char} (hfirst : '=' ∉ name)
    (h : ∀ cause, ¬ Offends isHead (name ++ '=' :: value) cause) :
    IsPair (name ++ '=' :: value) := by
  refine Classical.byContradiction fun hpair => ?_
  by_cases hkey : trim name = Key.normalize.name.toList
  · refine h _ (.noFlag hfirst hkey fun flag hflag => hpair (Or.inr ⟨value, flag, ?_, hflag⟩))
    exact ⟨name, rfl, hfirst, hkey⟩
  · refine h _ (.unknownKey hfirst fun key hname => ?_)
    cases key with
    | matrix => exact hpair (Or.inl ⟨value, name, rfl, hfirst, hname⟩)
    | normalize => exact hkey hname

/-- A piece does not offend when it is blank, can be set, or stands at the head without `=`. -/
theorem forall_not_offends_iff {isHead : Bool} {piece : List Char} :
    (∀ cause, ¬ Offends isHead piece cause) ↔
      piece = [] ∨ IsPair piece ∨ isHead = true ∧ '=' ∉ piece := by
  constructor
  · intro h
    cases hsplit : splitFirst? '=' piece with
    | some pair =>
      obtain ⟨name, value⟩ := pair
      obtain ⟨rfl, hfirst⟩ := splitFirst?_eq_some_iff.1 hsplit
      exact Or.inr (Or.inl (isPair_of_not_offends hfirst h))
    | none =>
      have hpair := splitFirst?_eq_none_iff.1 hsplit
      by_cases hblank : piece = []
      · exact Or.inl hblank
      · cases isHead with
        | true => exact Or.inr (Or.inr ⟨rfl, hpair⟩)
        | false => exact absurd (.noPair hblank hpair rfl) (h _)
  · rintro (rfl | hpair | ⟨rfl, hpair⟩) cause hoffends
    · rw [← offence?_eq_some_iff] at hoffends
      exact absurd hoffends (by simp [offence?, splitFirst?])
    · exact hpair.not_offends hoffends
    · rw [← offence?_eq_some_iff] at hoffends
      exact absurd hoffends (by simp [offence?, splitFirst?_eq_none_iff.2 hpair])

/-! ## Descriptors -/

/-- The form of a descriptor: every piece that is not blank can be set, but the first piece may be a
    head instead. -/
def Follows (IsHead : List Char → Prop) (pieces : List (List Char)) : Prop :=
  ∀ front piece back, pieces = front ++ piece :: back → piece ≠ [] →
    IsPair piece ∨ front = [] ∧ IsHead piece

/-- No piece offends when the pieces have the form that allows all heads without `=`. -/
theorem sound_iff_follows {pieces : List (List Char)} :
    Sound true pieces ↔ Follows (fun head => '=' ∉ head) pieces := by
  unfold Sound Follows
  simp only [forall_not_offends_iff, Bool.true_and, List.isEmpty_iff, ne_eq,
    Decidable.or_iff_not_imp_left]

/-- A descriptor is read when none of its pieces offends. -/
theorem exists_parse_iff_sound {descriptor : String} :
    (∃ s, parse descriptor = .ok s) ↔ Sound true (pieces descriptor) := by
  rw [← firstOffence?_eq_none_iff, parse, apply_eq, descriptorOffence?]
  cases firstOffence? true (pieces descriptor) with
  | none => exact iff_of_true ⟨_, rfl⟩ rfl
  | some cause => simp

/-- The form that allows the name of the scene as the only head is that which allows all heads, and
    the first piece is no other head. -/
theorem follows_name_iff {pieces : List (List Char)} :
    Follows (fun head => head = name.toList) pieces ↔
      Follows (fun head => '=' ∉ head) pieces ∧
        ∀ head ∈ pieces.head?, '=' ∉ head → head = [] ∨ head = name.toList := by
  constructor
  · intro h
    refine ⟨fun front piece back hpieces hblank => ?_, fun head hhead hfirst => ?_⟩
    · refine (h front piece back hpieces hblank).imp_right fun ⟨hfront, hname⟩ => ⟨hfront, ?_⟩
      rw [hname]
      decide
    · obtain ⟨back, rfl⟩ := List.head?_eq_some_iff.1 (Option.mem_def.1 hhead)
      refine Decidable.or_iff_not_imp_left.2 fun hblank => ?_
      rcases h [] head back rfl hblank with hpair | ⟨-, hname⟩
      · exact absurd hpair.mem hfirst
      · exact hname
  · rintro ⟨h, hhead⟩ front piece back rfl hblank
    rcases h front piece back rfl hblank with hpair | ⟨rfl, hfirst⟩
    · exact Or.inl hpair
    · exact Or.inr ⟨rfl, (hhead piece rfl hfirst).resolve_left hblank⟩

/-- A descriptor is accepted exactly when every piece that is not blank can be set, except that the
    first piece may be any text without `=`.  It has the form `[effect2d:]key=value[:key=value...]`
    exactly when moreover a first piece without `=` is blank or the name of the scene. -/
theorem parse_succeeds_iff (descriptor : String) :
    ((∃ s, parse descriptor = .ok s) ↔ Follows (fun head => '=' ∉ head) (pieces descriptor)) ∧
      (Follows (fun head => head = name.toList) (pieces descriptor) ↔
        (∃ s, parse descriptor = .ok s) ∧
          ∀ head ∈ (pieces descriptor).head?, '=' ∉ head → head = [] ∨ head = name.toList) := by
  rw [exists_parse_iff_sound, sound_iff_follows]
  exact ⟨Iff.rfl, follows_name_iff⟩

/-- A setting without a value at the head is accepted, without being set, and refused elsewhere. -/
theorem valueless_head_accepted :
    parse "normalize:matrix=1,1" = .ok ⟨"1,1", true⟩ ∧
      parse "matrix=1,1:normalize" = .error (.invalidOption "normalize" "") ∧
      ¬ Follows (fun head => head = name.toList) (pieces "normalize:matrix=1,1") := by
  refine ⟨rfl, rfl, fun h => ?_⟩
  obtain ⟨-, hhead⟩ := follows_name_iff.1 h
  exact absurd (hhead "normalize".toList rfl (by decide)) (by decide)

end Stencil.Scene
