import Stencil.Proofs.Shader.Editing

/-!
# The end of the preamble

A text begins with a block of directives: lines that are blank or directives, of which the last is a
directive.  The block can be empty, and blank lines behind it do not belong to it.  There is one
longest block, and only behind that one some other line than a directive comes first.  The preamble is
the longest block, so declarations are put in front of all code and behind all directives before it.

## Key results

- `IsDirectiveBlock.prefix_of_startsPlain`: a block that no directive follows holds every other block
- `exists_behind_preamble`: the preamble is a block, and no directive follows it
- `eq_preambleEnd_iff`: its end is the only position that ends such a block
- `exists_run_of_additions`: additions stand behind the text before the cursor, in order
- `preamble_ends_longest_block`: where the preamble ends, and that additions there are lines of
  their own
-/

namespace Stencil.Template

open Text

/-! ## Blocks of directives -/

/-- Lines that make a block of directives: each is blank or a directive, and the last one is a
    directive. -/
structure IsDirectiveBlock (ls : List (List Char)) : Prop where
  allowed : ∀ line ∈ ls, isBlankLine line ∨ isDirective line
  closed : ∀ line ∈ ls.getLast?, isDirective line

instance (ls : List (List Char)) : Decidable (IsDirectiveBlock ls) :=
  decidable_of_iff
    ((∀ line ∈ ls, isBlankLine line ∨ isDirective line) ∧ ∀ line ∈ ls.getLast?, isDirective line)
    ⟨fun h => ⟨h.1, h.2⟩, fun h => ⟨h.allowed, h.closed⟩⟩

/-- Lines of which the first that is not blank, if there is one, is not a directive. -/
def StartsPlain (ls : List (List Char)) : Prop :=
  ∀ line ∈ ls.find? (fun line => !isBlankLine line), ¬ isDirective line

instance (ls : List (List Char)) : Decidable (StartsPlain ls) :=
  inferInstanceAs (Decidable (∀ line ∈ ls.find? (fun line => !isBlankLine line), ¬ isDirective line))

/-- A directive is not blank. -/
theorem isBlankLine_of_isDirective {line : List Char} (h : isDirective line) :
    isBlankLine line = false := by
  -- The line begins with a mark, and no mark is empty
  have hmarks : ∀ mark ∈ directiveMarks, mark ≠ [] := by decide
  obtain ⟨mark, hmark, hprefix⟩ := List.any_eq_true.1 h
  rw [List.isPrefixOf_iff_prefix] at hprefix
  simp only [isBlankLine, List.isEmpty_eq_false_iff]
  intro hnil
  rw [hnil, List.prefix_nil] at hprefix
  exact hmarks mark hmark hprefix

@[simp] theorem startsPlain_nil : StartsPlain [] := by
  simp [StartsPlain]

/-- A blank line in front makes no difference. -/
theorem startsPlain_cons_of_blank {line : List Char} (h : isBlankLine line)
    (rest : List (List Char)) : StartsPlain (line :: rest) ↔ StartsPlain rest := by
  simp [StartsPlain, h]

/-- Of any other line in front it matters whether it is a directive. -/
theorem startsPlain_cons_of_not_blank {line : List Char} (h : isBlankLine line = false)
    (rest : List (List Char)) : StartsPlain (line :: rest) ↔ ¬ isDirective line := by
  simp [StartsPlain, h]

@[simp] theorem isDirectiveBlock_nil : IsDirectiveBlock [] where
  allowed := by simp
  closed := by simp

/-- A block can be continued in front by a directive, and by a blank line if it is not empty. -/
theorem IsDirectiveBlock.cons {line : List Char} {ls : List (List Char)} (h : IsDirectiveBlock ls)
    (hline : isDirective line ∨ isBlankLine line ∧ ls ≠ []) : IsDirectiveBlock (line :: ls) where
  allowed := by
    have hfirst : isBlankLine line ∨ isDirective line := by tauto
    simpa using ⟨hfirst, h.allowed⟩
  closed := by
    cases ls with
    | nil => simpa using hline
    | cons next more =>
      rw [List.getLast?_cons_cons]
      exact h.closed

/-- What is left of a block at its end is a block. -/
theorem IsDirectiveBlock.of_append {front back : List (List Char)}
    (h : IsDirectiveBlock (front ++ back)) : IsDirectiveBlock back where
  allowed := fun line hline => h.allowed line (List.mem_append_right front hline)
  closed := by
    intro line hline
    apply h.closed line
    rw [Option.mem_def] at hline
    simp [List.getLast?_append, hline]

/-- In a block that is not empty a directive comes first among the lines that are not blank. -/
theorem IsDirectiveBlock.not_startsPlain {block : List (List Char)} (h : IsDirectiveBlock block)
    (hne : block ≠ []) (rest : List (List Char)) : ¬ StartsPlain (block ++ rest) := by
  induction block with
  | nil => exact absurd rfl hne
  | cons line more ih =>
    rw [List.cons_append]
    by_cases hblank : isBlankLine line
    · -- A blank line is not the last of the block, so there is a shorter block behind it
      have hmore : more ≠ [] := by
        intro hnil
        have hdirective : isDirective line := h.closed line (by simp [hnil])
        simp [isBlankLine_of_isDirective hdirective] at hblank
      rw [startsPlain_cons_of_blank hblank]
      have hwhole : IsDirectiveBlock ([line] ++ more) := h
      exact ih hwhole.of_append hmore
    · have hdirective : isDirective line := by
        have hallowed := h.allowed line List.mem_cons_self
        tauto
      rw [startsPlain_cons_of_not_blank (by simpa using hblank)]
      exact fun hplain => hplain hdirective

/-- A block that no directive follows holds every other block at the start of the same lines. -/
theorem IsDirectiveBlock.prefix_of_startsPlain {block front back rest : List (List Char)}
    (hblock : IsDirectiveBlock block) (hplain : StartsPlain back)
    (hlines : front ++ back = block ++ rest) : block <+: front := by
  rcases List.append_eq_append_iff.1 hlines with ⟨more, hlonger, hback⟩ | ⟨more, hfront, -⟩
  · -- What the block has more than `front` would start `back` with a directive
    cases more with
    | nil => simp [hlonger]
    | cons line more =>
      rw [hlonger] at hblock
      rw [hback] at hplain
      exact absurd hplain (hblock.of_append.not_startsPlain (List.cons_ne_nil _ _) rest)
  · exact ⟨more, hfront.symm⟩

/-! ## The preamble -/

/-- The preamble is a block of directives, and no directive follows it before some other line does. -/
theorem exists_behind_preamble (ls : List (List Char)) :
    ∃ rest, preamble ls ++ rest = ls ∧ IsDirectiveBlock (preamble ls) ∧ StartsPlain rest := by
  induction ls with
  | nil => exact ⟨[], rfl, isDirectiveBlock_nil, startsPlain_nil⟩
  | cons line more ih =>
    obtain ⟨rest, hmore, hblock, hplain⟩ := ih
    by_cases hblank : isBlankLine line
    · cases hpreamble : preamble more with
      | nil =>
        -- No directive follows, so the blank line is not part of the preamble
        have hnil : preamble (line :: more) = [] := by simp [preamble, hblank, hpreamble]
        rw [hpreamble, List.nil_append] at hmore
        rw [hmore, ← startsPlain_cons_of_blank hblank] at hplain
        rw [hnil]
        exact ⟨line :: more, rfl, isDirectiveBlock_nil, hplain⟩
      | cons first others =>
        have hcons : preamble (line :: more) = line :: preamble more := by
          simp [preamble, hblank, hpreamble]
        have hne : preamble more ≠ [] := by simp [hpreamble]
        rw [hcons]
        exact ⟨rest, by rw [List.cons_append, hmore], hblock.cons (Or.inr ⟨hblank, hne⟩), hplain⟩
    · by_cases hdirective : isDirective line
      · have hcons : preamble (line :: more) = line :: preamble more := by
          simp [preamble, hblank, hdirective]
        rw [hcons]
        exact ⟨rest, by rw [List.cons_append, hmore], hblock.cons (Or.inl hdirective), hplain⟩
      · have hnil : preamble (line :: more) = [] := by simp [preamble, hblank, hdirective]
        rw [hnil]
        have hstart : StartsPlain (line :: more) :=
          (startsPlain_cons_of_not_blank (by simpa using hblank) more).2 hdirective
        exact ⟨line :: more, rfl, isDirectiveBlock_nil, hstart⟩

/-- A block at the start of a text is not longer than the preamble. -/
theorem IsDirectiveBlock.byteLength_le {cs : List Char} {block rest : List (List Char)}
    (h : IsDirectiveBlock block) (hlines : lines cs = block ++ rest) :
    byteLength block.flatten ≤ preambleEnd cs := by
  obtain ⟨behind, hwhole, -, hplain⟩ := exists_behind_preamble (lines cs)
  obtain ⟨more, hmore⟩ := h.prefix_of_startsPlain hplain (hwhole.trans hlines)
  rw [preambleEnd, ← hmore, List.flatten_append, byteLength_append]
  omega

/-- The end of the preamble is the only position that ends a block of directives that no directive
    follows. -/
theorem eq_preambleEnd_iff {cs : List Char} {e : Nat} :
    e = preambleEnd cs ↔ ∃ front back, lines cs = front ++ back ∧ byteLength front.flatten = e ∧
      IsDirectiveBlock front ∧ StartsPlain back := by
  obtain ⟨behind, hwhole, hpreamble, hbehind⟩ := exists_behind_preamble (lines cs)
  constructor
  · intro he
    exact ⟨preamble (lines cs), behind, hwhole.symm, he.symm, hpreamble, hbehind⟩
  · intro hblock
    obtain ⟨front, back, hlines, hlength, hfront, hback⟩ := hblock
    -- Each of the two blocks holds the other
    have hle : byteLength front.flatten ≤ preambleEnd cs := hfront.byteLength_le hlines
    obtain ⟨more, hmore⟩ := hpreamble.prefix_of_startsPlain hback (hlines.symm.trans hwhole.symm)
    have hge : preambleEnd cs ≤ byteLength front.flatten := by
      rw [preambleEnd, ← hmore, List.flatten_append, byteLength_append]
      omega
    omega

/-! ## Additions to a fresh template -/

/-- Additions stand behind the text before the cursor, in the order in which they are made. -/
theorem exists_run_of_additions {t : Template} {before after : List Char}
    (h : t.CutAt before after) {additions : List Edit} {texts : List (List Char)}
    (hadditions : additions.map (·.addition? t.dialect) = texts.map some) :
    ∃ t' answers, t.run additions = .ok (t', answers) ∧ t'.CutAt (before ++ texts.flatten) after := by
  have hstraddles : Along (fun t e => ¬ e.Straddles t) t additions := by
    intro done e rest hedits t' _ _ hstraddle
    have hmem : e.addition? t.dialect ∈ texts.map some := by
      rw [← hadditions, hedits]
      simp
    cases e with
    | insert _ => exact hstraddle
    | declare _ _ => exact hstraddle
    | substitute token new =>
      -- A substitution adds nothing, so it is not among the additions
      simp [Edit.addition?] at hmem
  have hshows : t.Shows t.dialect ⟨before, after⟩ := ⟨rfl, h⟩
  obtain ⟨t', hrun, hlast⟩ := run_halves hshows hstraddles
  rw [Halves.run_additions _ hadditions] at hlast
  exact ⟨t', _, hrun, hlast.cutAt⟩

/-- The preamble ends behind the longest block of directives at the start of a text, at the only
    position behind whole lines that has a directive before it, with nothing but directives and blank
    lines in front of that, and no directive behind it before some other line.  The text can be cut
    there.  If a line that is not blank follows, the position is the start of the text or of a line,
    and additions that end their lines are lines of their own between those before and behind. -/
theorem preamble_ends_longest_block (text : String) (dialect : Dialect) :
    (∀ e, e = preambleEnd text.toList ↔
      ∃ front back, lines text.toList = front ++ back ∧ byteLength front.flatten = e ∧
        IsDirectiveBlock front ∧ StartsPlain back) ∧
    (∀ block rest, lines text.toList = block ++ rest → IsDirectiveBlock block →
      byteLength block.flatten ≤ preambleEnd text.toList) ∧
    ∃ before after,
      splitAtByte? (preambleEnd text.toList) text.toList = some (before, after) ∧
      ((∃ line ∈ lines after, ¬ isBlankLine line) →
        (preambleEnd text.toList = 0 ∨ before.getLast? = some '\n') ∧
        ∀ additions (texts : List (List Char)),
          additions.map (·.addition? dialect) = texts.map some →
          (∀ added ∈ texts, added.getLast? = some '\n') →
          ∃ t answers, (ofText text dialect).run additions = .ok (t, answers) ∧
            lines t.text.toList = lines before ++ texts.flatMap lines ++ lines after) := by
  obtain ⟨after, hsplit⟩ := splitAtByte?_preambleEnd text.toList
  refine ⟨fun e => eq_preambleEnd_iff, fun block rest hlines hblock => hblock.byteLength_le hlines,
    _, after, hsplit, ?_⟩
  generalize (preamble (lines text.toList)).flatten = before at hsplit
  intro hfollows
  have hafter : after ≠ [] := by
    intro hnil
    simp [hnil, lines] at hfollows
  have hends : before = [] ∨ before.getLast? = some '\n' := by
    have hparts := preamble_ends_line hsplit
    tauto
  constructor
  · obtain ⟨-, hlength⟩ := splitAtByte?_eq_some_iff.1 hsplit
    exact hends.imp_left fun hnil => by rw [← hlength, hnil, byteLength_nil]
  · intro additions texts hadditions hfeeds
    obtain ⟨t, answers, hrun, hcut⟩ :=
      exists_run_of_additions (cutAt_ofText dialect hsplit) hadditions
    refine ⟨t, answers, hrun, ?_⟩
    rw [hcut.text_eq, List.append_assoc, lines_append hends, lines_flatten_append hfeeds,
      List.append_assoc]

/-- Blank lines stand between the directives and behind them, and the last line does not end. -/
theorem preamble_ends_longest_block_blank_lines :
    15 = preambleEnd "// é\r\n\u3000\r\n#v\n \nx".toList ∧
      ∃ t answers, (ofText "// é\r\n\u3000\r\n#v\n \nx" .glsl).run
          [.insert "a;\n", .insert "b;\nc;\n"] = .ok (t, answers) ∧
        lines t.text.toList = ["// é\r\n", "\u3000\r\n", "#v\n", "a;\n", "b;\n", "c;\n", " \n",
          "x"].map String.toList := by
  obtain ⟨hposition, -, before, after, hsplit, hfollows⟩ :=
    preamble_ends_longest_block "// é\r\n\u3000\r\n#v\n \nx" .glsl
  have hblock : 15 = preambleEnd "// é\r\n\u3000\r\n#v\n \nx".toList :=
    (hposition 15).2 ⟨["// é\r\n", "\u3000\r\n", "#v\n"].map String.toList,
      [" \n", "x"].map String.toList, by decide, by decide, by decide, by decide⟩
  have hparts : splitAtByte? 15 "// é\r\n\u3000\r\n#v\n \nx".toList =
      some ("// é\r\n\u3000\r\n#v\n".toList, " \nx".toList) := by decide
  rw [← hblock] at hsplit
  obtain ⟨rfl, rfl⟩ := Prod.mk.inj (Option.some.inj (hsplit.symm.trans hparts))
  obtain ⟨-, hadditions⟩ := hfollows ⟨"x".toList, by decide, by decide⟩
  obtain ⟨t, answers, hrun, hlines⟩ := hadditions [.insert "a;\n", .insert "b;\nc;\n"]
    ["a;\n".toList, "b;\nc;\n".toList] rfl (by decide)
  refine ⟨hblock, t, answers, hrun, ?_⟩
  rw [hlines]
  decide

end Stencil.Template
