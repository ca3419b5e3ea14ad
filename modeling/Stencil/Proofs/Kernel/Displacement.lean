import Stencil.Proofs.Kernel.Taps

/-!
# Displacements at the ends of the machine words

A column or a row is counted by an unsigned word and read as a signed one, so in the upper half of
the range it becomes a negative number.  The middle of a side is so close to the end of the side that
the difference from it then leaves the range of a signed word.  Such a cell is refused; no
displacement is ever a wrong one.

## Key results

- `checked_sub_middle`: a coordinate that wraps around is refused
- `displacement_eq_error`: a cell with such a coordinate has no displacement
- `offsetOf_never_wrong`: which indices have an offset, and the integers it stands for
- `displacement_no_rows`: without rows the middle is not where rounding down puts it
-/

namespace Stencil.Kernel

variable {index width height : Nat}

/-! ## Coordinates that wrap around -/

/-- A coordinate in the upper half of the range is read so far below zero that its difference from the
    middle of its side leaves the range of a signed word. -/
theorem checked_sub_middle {coordinate side : Nat} (hside : side < Word.size)
    (hinside : coordinate < side) (hlarge : Word.signedLimit ≤ coordinate) :
    Word.checked (Word.toSigned coordinate - Word.toSigned ((side - 1) / 2)) =
      .error .overflow := by
  have hmiddle : ((side - 1) / 2 : Nat) < Word.signedLimit := by
    unfold Word.signedLimit Word.size at *
    omega
  rw [Word.toSigned_of_ge hlarge (Nat.lt_trans hinside hside), Word.toSigned_of_lt hmiddle]
  refine Word.checked_of_lt ?_
  unfold Word.signedLimit Word.size at *
  omega

/-- A cell whose column or row is in the upper half of the range has no displacement. -/
theorem displacement_eq_error (hwidth_lt : width < Word.size) (hheight_lt : height < Word.size)
    (hindex : index < width * height)
    (hlarge : Word.signedLimit ≤ (index % width : Nat) ∨
      Word.signedLimit ≤ (index / width : Nat)) :
    displacement index width height = .error .overflow := by
  have hwidth : 0 < width := Nat.pos_of_mul_pos_right (Nat.zero_lt_of_lt hindex)
  have hcolumn : index % width < width := Nat.mod_lt index hwidth
  have hrow : index / width < height := Nat.div_lt_of_lt_mul hindex
  unfold displacement centerOf
  rw [if_neg (Nat.ne_of_gt hwidth)]
  dsimp only
  -- The column is looked at first, and the row only if the column is not refused
  rcases Int.lt_or_le (index % width : Nat) Word.signedLimit with hfits | hwraps
  · have hcenter : ((width - 1) / 2 : Nat) < Word.signedLimit := by
      unfold Word.signedLimit Word.size at *
      omega
    rw [checked_sub_middle hheight_lt hrow (hlarge.resolve_left (Int.not_le.2 hfits)),
      Word.toSigned_of_lt hfits, Word.toSigned_of_lt hcenter,
      Word.checked_of_bounds (by omega) (by omega)]
    rfl
  · rw [checked_sub_middle hwidth_lt hcolumn hwraps]
    rfl

/-! ## Exact integers -/

/-- The middle of a side, rounded down. -/
def middleOf (side : Nat) : Int := ((side : Int) - 1) / 2

/-- The middle is counted from the first cell, where there is one. -/
theorem natCast_middle {side : Nat} (h : 0 < side) :
    (((side - 1) / 2 : Nat) : Int) = middleOf side := by
  unfold middleOf
  omega

/-- The difference of a cell from the middles of both sides. -/
def fromMiddles (index width height : Nat) : Displacement :=
  ⟨(index % width : Nat) - middleOf width, middleOf height - (index / width : Nat)⟩

theorem shiftOf_eq_fromMiddles (hwidth : 0 < width) (hheight : 0 < height) :
    shiftOf index width height = fromMiddles index width height := by
  rw [shiftOf, fromMiddles, natCast_middle hwidth, natCast_middle hheight]

/-- Without rows the first row is taken for the middle. -/
theorem shiftOf_no_rows (hwidth : 0 < width) :
    shiftOf index width 0 = ⟨(index % width : Nat) - middleOf width, -(index / width : Nat)⟩ := by
  rw [shiftOf, natCast_middle hwidth]
  simp

/-! ## Offsets -/

/-- A cell of a rectangle is refused exactly when its column or its row is in the upper half of the
    range of a word, and the offset of every other cell stands for its exact difference from the
    middles.  An index in the lower half of the range has such an offset in every rectangle, also one
    that does not hold it; the middle row of a rectangle without rows is the first one. -/
theorem offsetOf_never_wrong (hwidth : 0 < width) (hwidth_lt : width < Word.size)
    (hheight_lt : height < Word.size) :
    (index < width * height →
      ((∃ fault, offsetOf index width height = .error fault) ↔
        Word.signedLimit ≤ (index % width : Nat) ∨ Word.signedLimit ≤ (index / width : Nat)) ∧
      ∀ offset, offsetOf index width height = .ok offset →
        displacement index width height = .ok (fromMiddles index width height) ∧
          offset = (fromMiddles index width height).toOffset) ∧
    ((index : Int) < Word.signedLimit →
      ∃ d, displacement index width height = .ok d ∧ offsetOf index width height = .ok d.toOffset ∧
        (0 < height → d = fromMiddles index width height) ∧
        (height = 0 → d = ⟨(index % width : Nat) - middleOf width, -(index / width : Nat)⟩)) := by
  constructor
  · intro hindex
    have hheight : 0 < height := Nat.pos_of_mul_pos_left (Nat.zero_lt_of_lt hindex)
    rw [offsetOf]
    by_cases hlarge : Word.signedLimit ≤ (index % width : Nat) ∨
        Word.signedLimit ≤ (index / width : Nat)
    · rw [displacement_eq_error hwidth_lt hheight_lt hindex hlarge]
      refine ⟨iff_of_true ⟨.overflow, rfl⟩ hlarge, fun offset hoffset => ?_⟩
      cases hoffset
    · obtain ⟨hcolumn, hrow⟩ := not_or.1 hlarge
      rw [displacement_eq_ok hwidth (Nat.le_of_lt hwidth_lt) (Nat.le_of_lt hheight_lt)
        (Int.not_le.1 hcolumn) (Int.not_le.1 hrow), shiftOf_eq_fromMiddles hwidth hheight]
      refine ⟨iff_of_false (fun hfault => ?_) hlarge,
        fun offset h => ⟨rfl, (Except.ok.inj h).symm⟩⟩
      obtain ⟨fault, herror⟩ := hfault
      cases herror
  · intro hindex
    have hdisplacement := displacement_eq_ok_of_lt hwidth (Nat.le_of_lt hwidth_lt)
      (Nat.le_of_lt hheight_lt) hindex
    refine ⟨_, hdisplacement, by rw [offsetOf, hdisplacement]; rfl, fun hheight => ?_, ?_⟩
    · exact shiftOf_eq_fromMiddles hwidth hheight
    · rintro rfl
      exact shiftOf_no_rows hwidth

/-- The row `2 ^ 63` of a single column is refused, and the row before it lies as far below the middle
    as it should. -/
theorem offsetOf_never_wrong_single_column :
    0x8000000000000000 < 1 * 0x8000000000000001 ∧ 0x8000000000000001 < Word.size ∧
      (∃ fault, offsetOf 0x8000000000000000 1 0x8000000000000001 = .error fault) ∧
      ((0x7fffffffffffffff : Nat) : Int) < Word.signedLimit ∧
      displacement 0x7fffffffffffffff 1 0x8000000000000001 = .ok ⟨0, -0x3fffffffffffffff⟩ := by
  have hindex : 0x8000000000000000 < 1 * 0x8000000000000001 := by decide
  have hheight : 0x8000000000000001 < Word.size := by decide
  have hlower : ((0x7fffffffffffffff : Nat) : Int) < Word.signedLimit := by decide
  have hrefused := ((offsetOf_never_wrong (by decide) (by decide) hheight).1 hindex).1.2
    (Or.inr (by decide))
  obtain ⟨d, hd, -, hexact, -⟩ :=
    (offsetOf_never_wrong (Nat.one_pos) (by decide) hheight).2 hlower
  have hshift : fromMiddles 0x7fffffffffffffff 1 0x8000000000000001 = ⟨0, -0x3fffffffffffffff⟩ := by
    decide
  rw [hexact (by decide), hshift] at hd
  exact ⟨hindex, hheight, hrefused, hlower, hd⟩

/-- Rounding down puts the middle row of a rectangle without rows above the first row, and the
    displacement is not counted from there. -/
theorem displacement_no_rows :
    displacement 0 1 0 = .ok ⟨0, 0⟩ ∧ fromMiddles 0 1 0 = ⟨0, -1⟩ ∧
      ¬ ∀ index width height : Nat, 0 < width → width < Word.size → height < Word.size →
        (index : Int) < Word.signedLimit →
          displacement index width height = .ok (fromMiddles index width height) := by
  have hreturned : displacement 0 1 0 = .ok ⟨0, 0⟩ :=
    displacement_eq_ok_of_lt Nat.one_pos (by decide) (Nat.zero_le _) (by decide)
  have hmiddles : fromMiddles 0 1 0 = ⟨0, -1⟩ := rfl
  refine ⟨hreturned, hmiddles, fun h => ?_⟩
  have hsame := h 0 1 0 (by decide) (by decide) (by decide) (by decide)
  rw [hreturned, hmiddles] at hsame
  exact absurd (Except.ok.inj hsame) (by decide)

end Stencil.Kernel
