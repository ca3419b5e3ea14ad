/-! # Byte positions

Positions in a text count the bytes of its UTF-8 form.  A position is good if it is the length of
an initial part of the text; any other lies past the end or inside a character.
`splitAtByte?_eq_some_iff` says that `splitAtByte?` finds exactly the good ones.
-/

namespace Stencil.Text

/-- The number of bytes of a text. -/
def byteLength : List Char → Nat
  | [] => 0
  | c :: cs => c.utf8Size + byteLength cs

/-- The parts of a text before and after a byte position, if the position is good. -/
def splitAtByte? : Nat → List Char → Option (List Char × List Char)
  | 0, cs => some ([], cs)
  | _ + 1, [] => none
  | n + 1, c :: cs =>
    if c.utf8Size ≤ n + 1 then
      (splitAtByte? (n + 1 - c.utf8Size) cs).map fun (before, after) => (c :: before, after)
    else none

@[simp] theorem byteLength_nil : byteLength [] = 0 := rfl

@[simp] theorem byteLength_cons (c : Char) (cs : List Char) :
    byteLength (c :: cs) = c.utf8Size + byteLength cs := rfl

@[simp] theorem byteLength_append (cs ds : List Char) :
    byteLength (cs ++ ds) = byteLength cs + byteLength ds := by
  induction cs with
  | nil => simp
  | cons c cs ih => simp only [List.cons_append, byteLength_cons, ih]; omega

/-- The length of an initial part is a good position, and it splits the text there. -/
theorem splitAtByte?_byteLength (cs ds : List Char) :
    splitAtByte? (byteLength cs) (cs ++ ds) = some (cs, ds) := by
  induction cs with
  | nil => cases ds <;> rfl
  | cons c cs ih =>
    have size_pos := c.utf8Size_pos
    obtain ⟨n, total⟩ : ∃ n, byteLength (c :: cs) = n + 1 :=
      ⟨byteLength (c :: cs) - 1, by simp only [byteLength_cons]; omega⟩
    have rest : n + 1 - c.utf8Size = byteLength cs := by
      rw [← total, byteLength_cons]; omega
    have fits : c.utf8Size ≤ n + 1 := by rw [← total, byteLength_cons]; omega
    simp [total, splitAtByte?, fits, rest, ih]

/-- The good positions are the lengths of initial parts. -/
theorem splitAtByte?_eq_some_iff {n : Nat} {cs before after : List Char} :
    splitAtByte? n cs = some (before, after) ↔ cs = before ++ after ∧ byteLength before = n := by
  constructor
  · intro h
    induction cs generalizing n before with
    | nil =>
      cases n with
      | zero => simp_all [splitAtByte?]
      | succ n => simp [splitAtByte?] at h
    | cons c cs ih =>
      cases n with
      | zero =>
        simp [splitAtByte?] at h
        obtain ⟨rfl, rfl⟩ := h
        simp
      | succ n =>
        unfold splitAtByte? at h
        split at h
        · rename_i fits
          obtain ⟨⟨b, a⟩, found, same⟩ := Option.map_eq_some_iff.1 h
          obtain ⟨rfl, rfl⟩ := Prod.mk.inj same
          obtain ⟨rfl, length⟩ := ih found
          refine ⟨rfl, ?_⟩
          rw [byteLength_cons, length]
          omega
        · exact absurd h (by simp)
  · rintro ⟨rfl, rfl⟩
    exact splitAtByte?_byteLength before after

end Stencil.Text
