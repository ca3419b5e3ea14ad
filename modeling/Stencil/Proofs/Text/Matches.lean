import Mathlib.Data.Set.Card
import Mathlib.Data.Set.Finite.Lemmas
import Stencil.Proofs.Text.Scan

/-!
# The matches in an initial part of a text

The scan of an initial part of a text finds the matches of the whole text that end in the part, and
no others: up to the end of such a match both scans see the same characters.  So the matches before a
position can be counted in either text, although the token may overlap itself and a match may
straddle the position.

## Key results

- `scan_induction`: a fact about texts, proved along the scan
- `scanned_append_iff`: the matches in an initial part are those of the text that end in it
- `encard_scanMatches`: the scan finds as many matches as `cut` removes
- `encard_scanMatches_within`: the matches that end before a position are those of the part before it
- `matchCount_mul_le`: the matches of a text are not longer than the text
- `exists_endsLastMatch`: the part up to the last match before a position has all these matches
- `replace_behind_match`: up to the end of a match and behind it a text is replaced separately
-/

namespace Stencil.Text

variable {token : List Char}

/-! ## The matches of a text -/

/-- Induction along the scan: the text is at its end, begins with a match, or begins with a character
    at which there is no match. -/
@[elab_as_elim]
theorem scan_induction {motive : List Char → Prop} (hne : token ≠ []) (cs : List Char)
    (nil : motive []) (self : ∀ cs, motive cs → motive (token ++ cs))
    (past : ∀ c cs, ¬ token <+: c :: cs → motive cs → motive (c :: cs)) : motive cs := by
  induction hlength : cs.length using Nat.strong_induction_on generalizing cs with
  | _ n ih =>
    subst hlength
    by_cases hmatch : token <+: cs
    · obtain ⟨rest, rfl⟩ := hmatch
      have hpos := List.length_pos_iff.2 hne
      exact self rest (ih rest.length (by rw [List.length_append]; omega) rest rfl)
    · cases cs with
      | nil => exact nil
      | cons c rest => exact past c rest hmatch (ih rest.length (by simp) rest rfl)

/-- At the end of a text there is no match. -/
theorem not_scanned_nil (hne : token ≠ []) (front back : List Char) :
    ¬ Scanned token [] front back := by
  intro h
  have htext := h.text_eq
  simp [hne] at htext

/-- Where a match begins, the scan finds it, or goes on behind it. -/
theorem scanned_append_self_iff {cs front back : List Char} :
    Scanned token (token ++ cs) front back ↔
      front = [] ∧ back = cs ∨ ∃ rest, front = token ++ rest ∧ Scanned token cs rest back := by
  constructor
  · intro h
    generalize htext : token ++ cs = text at h
    cases h with
    | here back => exact Or.inl ⟨rfl, (List.append_cancel_left htext).symm⟩
    | behind h =>
      obtain rfl := List.append_cancel_left htext
      exact Or.inr ⟨_, rfl, h⟩
    | past hmatch h =>
      -- There is a match at the first character
      rw [← htext] at hmatch
      exact absurd (List.prefix_append token cs) hmatch
  · intro h
    cases h with
    | inl hhere =>
      obtain ⟨rfl, rfl⟩ := hhere
      exact Scanned.here _
    | inr hbehind =>
      obtain ⟨rest, rfl, hrest⟩ := hbehind
      exact Scanned.behind hrest

/-- Where no match begins, the scan goes on behind the first character. -/
theorem scanned_cons_iff {c : Char} {cs front back : List Char} (hmatch : ¬ token <+: c :: cs) :
    Scanned token (c :: cs) front back ↔ ∃ rest, front = c :: rest ∧ Scanned token cs rest back := by
  constructor
  · intro h
    generalize htext : c :: cs = text at h
    cases h with
    | here back =>
      rw [htext] at hmatch
      exact absurd (List.prefix_append token back) hmatch
    | behind h =>
      rw [htext] at hmatch
      exact absurd (List.prefix_append token _) hmatch
    | past _ h =>
      obtain ⟨rfl, rfl⟩ := List.cons.inj htext
      exact ⟨_, rfl, h⟩
  · intro h
    obtain ⟨rest, rfl, hrest⟩ := h
    exact Scanned.past hmatch hrest

/-- What the scan finds behind a match, it finds in the text. -/
theorem Scanned.trans {cs front back rest tail : List Char} (h : Scanned token cs front back)
    (hbehind : Scanned token back rest tail) :
    Scanned token cs (front ++ (token ++ rest)) tail := by
  induction h with
  | here back => exact Scanned.behind hbehind
  | behind _ ih =>
    rw [List.append_assoc]
    exact Scanned.behind (ih hbehind)
  | past hmatch _ ih => exact Scanned.past hmatch (ih hbehind)

/-- Where a token occurs, the scan finds a match. -/
theorem exists_scanned_of_infix (hne : token ≠ []) {cs : List Char} (h : token <:+: cs) :
    ∃ front back, Scanned token cs front back := by
  induction cs using scan_induction hne with
  | nil => exact absurd (List.infix_nil.1 h) hne
  | self cs _ => exact ⟨[], cs, Scanned.here cs⟩
  | past c cs hmatch ih =>
    have hinner : token <:+: cs := by
      rw [List.infix_cons_iff] at h
      exact h.resolve_left hmatch
    obtain ⟨front, back, hscan⟩ := ih hinner
    exact ⟨c :: front, back, Scanned.past hmatch hscan⟩

/-! ## The number of matches -/

/-- The matches that the scan of a text finds, each as what stands before and what stands behind
    it. -/
def scanMatches (token cs : List Char) : Set (List Char × List Char) :=
  {m | Scanned token cs m.1 m.2}

@[simp] theorem mem_scanMatches {cs : List Char} {m : List Char × List Char} :
    m ∈ scanMatches token cs ↔ Scanned token cs m.1 m.2 := Iff.rfl

theorem matchCount_nil (token : List Char) : matchCount token [] = 0 := rfl

/-- A match at the start of a text is counted. -/
theorem matchCount_append_self (hne : token ≠ []) (cs : List Char) :
    matchCount token (token ++ cs) = matchCount token cs + 1 := by
  have hpos := List.length_pos_iff.2 (cutFrom_ne_nil token 0 cs)
  show (cut token (token ++ cs)).length - 1 = (cutFrom token 0 cs).length - 1 + 1
  rw [cut_append_self hne, List.length_cons, cut]
  omega

/-- A character at which there is no match is not counted. -/
theorem matchCount_cons {c : Char} {cs : List Char} (hmatch : ¬ token <+: c :: cs) :
    matchCount token (c :: cs) = matchCount token cs := by
  rw [← List.isPrefixOf_iff_prefix] at hmatch
  simp [matchCount, cut, cutFrom, hmatch]

/-- The scan finds as many matches as `cut` removes. -/
theorem encard_scanMatches (hne : token ≠ []) (cs : List Char) :
    (scanMatches token cs).encard = matchCount token cs := by
  induction cs using scan_induction hne with
  | nil =>
    have hnone : scanMatches token [] = ∅ := by
      ext m
      simp [not_scanned_nil hne]
    simp [hnone, matchCount_nil]
  | self cs ih =>
    -- The match at the start, and the others with the token in front of them
    have hfound : scanMatches token (token ++ cs) =
        insert ([], cs) (Prod.map (token ++ ·) id '' scanMatches token cs) := by
      ext ⟨front, back⟩
      simp only [mem_scanMatches, scanned_append_self_iff, Set.mem_insert_iff,
        Set.mem_image, Prod.exists, Prod.map_apply, id_eq, Prod.mk.injEq]
      grind
    have hfirst : ([], cs) ∉ Prod.map (token ++ ·) id '' scanMatches token cs := by
      simp [hne]
    have hinjective := (List.append_right_injective token).prodMap
      (Function.injective_id (α := List Char))
    rw [hfound, Set.encard_insert_of_notMem hfirst, hinjective.encard_image, ih,
      matchCount_append_self hne, Nat.cast_add, Nat.cast_one]
  | past c cs hmatch ih =>
    have hfound : scanMatches token (c :: cs) = Prod.map (c :: ·) id '' scanMatches token cs := by
      ext ⟨front, back⟩
      simp only [mem_scanMatches, scanned_cons_iff hmatch, Set.mem_image,
        Prod.exists, Prod.map_apply, id_eq, Prod.mk.injEq]
      grind
    have hinjective := (List.cons_injective (a := c)).prodMap
      (Function.injective_id (α := List Char))
    rw [hfound, hinjective.encard_image, ih, matchCount_cons hmatch]

/-- The matches of a text are not longer than the text. -/
theorem matchCount_mul_le (hne : token ≠ []) (cs : List Char) :
    matchCount token cs * byteLength token ≤ byteLength cs := by
  induction cs using scan_induction hne with
  | nil => simp [matchCount_nil]
  | self cs ih =>
    rw [matchCount_append_self hne, Nat.succ_mul, byteLength_append]
    omega
  | past c cs hmatch ih =>
    rw [matchCount_cons hmatch, byteLength_cons]
    omega

/-! ## The matches before a position -/

/-- A match in an initial part of a text is a match in the text. -/
private theorem Scanned.append {before front rest : List Char} (h : Scanned token before front rest)
    (after : List Char) : Scanned token (before ++ after) front (rest ++ after) := by
  induction h with
  | here back =>
    rw [List.append_assoc]
    exact Scanned.here (back ++ after)
  | behind _ ih =>
    rw [List.append_assoc]
    exact Scanned.behind ih
  | @past c cs front back hmatch h ih =>
    refine Scanned.past (fun hlonger => hmatch ?_) ih
    -- The text before the seam holds a match, so a match at `c` ends in front of the seam
    have hlength := congrArg List.length h.text_eq
    simp only [List.length_append] at hlength
    refine List.prefix_of_prefix_length_le hlonger (List.prefix_append (c :: cs) after) ?_
    rw [List.length_cons]
    omega

/-- The scan of an initial part of a text finds the matches of the text that end in that part. -/
theorem scanned_append_iff {before front rest : List Char} (after : List Char) :
    Scanned token (before ++ after) front (rest ++ after) ↔ Scanned token before front rest := by
  constructor
  · intro h
    generalize htext : before ++ after = text at h
    generalize hback : rest ++ after = back at h
    induction h generalizing before with
    | here back =>
      rw [← hback, ← List.append_assoc] at htext
      rw [List.append_cancel_right htext]
      exact Scanned.here rest
    | @behind cs front back h ih =>
      -- `before` goes on behind the first match, up to the end of the match that is found
      have hinner : before = token ++ (front ++ (token ++ rest)) := by
        rw [h.text_eq, ← hback] at htext
        rw [← List.append_left_inj after]
        simpa using htext
      rw [hinner]
      refine Scanned.behind (ih ?_ hback)
      rw [h.text_eq, ← hback]
      simp
    | @past c cs front back hmatch h ih =>
      have hinner : before = c :: (front ++ (token ++ rest)) := by
        rw [h.text_eq, ← hback] at htext
        rw [← List.append_left_inj after]
        simpa using htext
      have hrest : front ++ (token ++ rest) ++ after = cs := by
        rw [h.text_eq, ← hback]
        simp
      rw [hinner]
      refine Scanned.past (fun hshorter => hmatch ?_) (ih hrest hback)
      rw [← hrest]
      exact hshorter.trans (List.prefix_append (c :: (front ++ (token ++ rest))) after)
  · intro h
    exact h.append after

/-- A match that ends at or before a position is a match of the part before it. -/
theorem exists_scanned_before {before after front back : List Char}
    (h : Scanned token (before ++ after) front back)
    (hle : byteLength (front ++ token) ≤ byteLength before) :
    ∃ rest, back = rest ++ after ∧ before = front ++ token ++ rest ∧
      Scanned token before front rest := by
  have htext := h.text_eq
  rw [← List.append_assoc front] at htext
  obtain ⟨rest, hbefore, rfl⟩ := exists_rest_of_byteLength_le htext hle
  exact ⟨rest, rfl, hbefore, (scanned_append_iff after).1 h⟩

/-- The matches of a text that end at or before a position are as many as the matches of the part
    before it. -/
theorem encard_scanMatches_within (hne : token ≠ []) (before after : List Char) :
    {m ∈ scanMatches token (before ++ after) |
      byteLength (m.1 ++ token) ≤ byteLength before}.encard = matchCount token before := by
  have hfound : {m ∈ scanMatches token (before ++ after) |
        byteLength (m.1 ++ token) ≤ byteLength before} =
      Prod.map id (· ++ after) '' scanMatches token before := by
    ext ⟨front, back⟩
    simp only [mem_scanMatches, Set.mem_image, Prod.exists, Prod.map_apply, id_eq, Prod.mk.injEq]
    constructor
    · intro hmatch
      obtain ⟨rest, hback, -, hscan⟩ := exists_scanned_before hmatch.1 hmatch.2
      exact ⟨front, rest, hscan, rfl, hback.symm⟩
    · intro hmatch
      obtain ⟨_, rest, hscan, rfl, rfl⟩ := hmatch
      refine ⟨hscan.append after, ?_⟩
      rw [hscan.text_eq, ← List.append_assoc, byteLength_append _ rest]
      exact Nat.le_add_right _ _
  have hinjective := (Function.injective_id (α := List Char)).prodMap
    (List.append_left_injective after)
  rw [hfound, hinjective.encard_image, encard_scanMatches hne]

/-! ## The last match before a position -/

/-- A part of a text that ends with the last match that ends at or before a position, or is empty if
    there is no such match. -/
structure EndsLastMatch (token cs : List Char) (position : Nat) (done : List Char) : Prop where
  is_end : done = [] ∨ ∃ front back, Scanned token cs front back ∧ done = front ++ token
  le_position : byteLength done ≤ position
  is_last : ∀ front back, Scanned token cs front back →
    byteLength (front ++ token) ≤ position → byteLength (front ++ token) ≤ byteLength done

/-- The part up to the last match before a position, and what is left behind it, where there is no
    match any more. -/
theorem exists_endsLastMatch (hne : token ≠ []) (before after : List Char) :
    ∃ done rest, before = done ++ rest ∧
      EndsLastMatch token (before ++ after) (byteLength before) done ∧
      (done = [] ∨ ∃ front, done = front ++ token ∧ Scanned token before front rest) ∧
      ¬ token <:+: rest := by
  cases (scanMatches token before).eq_empty_or_nonempty with
  | inl hempty =>
    have hnone : ∀ front back, ¬ Scanned token before front back := by
      intro front back hscan
      have hmem : (front, back) ∈ scanMatches token before := hscan
      simp [hempty] at hmem
    refine ⟨[], before, rfl, ⟨Or.inl rfl, Nat.zero_le _, ?_⟩, Or.inl rfl, ?_⟩
    · intro front back hscan hle
      obtain ⟨rest, -, -, hbefore⟩ := exists_scanned_before hscan hle
      exact absurd hbefore (hnone front rest)
    · intro hinfix
      obtain ⟨front, back, hscan⟩ := exists_scanned_of_infix hne hinfix
      exact hnone front back hscan
  | inr hsome =>
    have hfinite := Set.finite_of_encard_eq_coe (encard_scanMatches hne before)
    obtain ⟨⟨front, rest⟩, hscan, hlast⟩ :=
      Set.exists_max_image _ (fun m => byteLength (m.1 ++ token)) hfinite hsome
    rw [mem_scanMatches] at hscan
    have hparts : before = front ++ token ++ rest := by
      rw [List.append_assoc]
      exact hscan.text_eq
    refine ⟨front ++ token, rest, hparts, ⟨?_, ?_, ?_⟩, Or.inr ⟨front, rfl, hscan⟩, ?_⟩
    · exact Or.inr ⟨front, rest ++ after, hscan.append after, rfl⟩
    · rw [hparts, byteLength_append _ rest]
      omega
    · intro front' back hscan' hle
      obtain ⟨rest', -, -, hbefore⟩ := exists_scanned_before hscan' hle
      exact hlast (front', rest') hbefore
    · -- A match in `rest` would be a later match
      intro hinfix
      obtain ⟨inner, tail, hinner⟩ := exists_scanned_of_infix hne hinfix
      have hlater := hlast (front ++ (token ++ inner), tail) (hscan.trans hinner)
      have hpos := byteLength_pos hne
      simp only [byteLength_append] at hlater
      omega

/-- Behind a match of the scan the text is replaced on its own. -/
theorem Scanned.replace_eq {cs front back : List Char} (new : List Char) (hne : token ≠ [])
    (h : Scanned token cs front back) :
    replace token new cs = replace token new (front ++ token) ++ replace token new back := by
  have hend : Scanned token (front ++ token) front [] := by
    rw [← scanned_append_iff back, List.append_assoc, ← h.text_eq]
    exact h
  have hnil : replace token new [] = [] := rfl
  rw [replace_scanned new hne h, replace_scanned new hne hend, hnil, List.append_nil,
    List.append_assoc]

/-- Up to the end of a match and behind it a text is replaced separately. -/
theorem replace_behind_match {cs done rest : List Char} (new : List Char) (hne : token ≠ [])
    (hparts : cs = done ++ rest)
    (hdone : done = [] ∨ ∃ front, done = front ++ token ∧ Scanned token cs front rest) :
    replace token new cs = replace token new done ++ replace token new rest := by
  cases hdone with
  | inl hnil =>
    rw [hparts, hnil]
    rfl
  | inr hsome =>
    obtain ⟨front, rfl, hscan⟩ := hsome
    exact hscan.replace_eq new hne

end Stencil.Text
