import Stencil.Proofs.Shader.Layout

/-!
# Where the placeholder is looked for

The placeholder is looked for once the declarations stand in the template.  So an occurrence can lie in
the declarations, or reach into them from the template, although the template has none; and one that
reaches from the preamble into the rest of the template is torn apart by them.  A placeholder of one
line is never torn, as the preamble ends with a line, and it can be brought in by a single
declaration only, or by the first one together with a preamble that does not end its line.

## Key results

- `infix_splice_iff`: where a token can occur in a text with an insertion
- `infix_flatten_iff` / `straddles_line_iff`: tokens of one line occur in lines
- `broughtIn_iff`: how the declarations bring a placeholder of one line in
- `placeholder_found_iff`: when there is source, and when the template alone decides this
- `placeholder_not_sought_in_template`: a placeholder that is brought in, and one that is torn apart
-/

namespace Stencil.Shader

open Text

/-! ## Insertions -/

/-- An occurrence of a token lies in an insertion, or reaches into it or across it. -/
def BroughtIn (token before inserted after : List Char) : Prop :=
  token <:+: inserted ∨ Straddles token before (inserted ++ after) ∨ Straddles token inserted after

variable {token before after : List Char}

/-- A token occurs in a text with an insertion when it occurs in a part of the text, or is brought
    in. -/
theorem infix_splice_iff (token before inserted after : List Char) :
    token <:+: before ++ inserted ++ after ↔
      token <:+: before ∨ token <:+: after ∨ BroughtIn token before inserted after := by
  rw [List.append_assoc, infix_append_iff_straddles, infix_append_iff_straddles, BroughtIn]
  tauto

/-! ## Tokens of one line -/

/-- An occurrence of a token of one line that begins before a line ends in the line. -/
theorem straddles_line_iff (hline : '\n' ∉ token) (before line rest : List Char) :
    Straddles token before (line ++ '\n' :: rest) ↔ Straddles token before line := by
  constructor
  · rintro ⟨l₁, l₂, hl₁, hl₂, rfl, hsuffix, hprefix⟩
    refine ⟨l₁, l₂, hl₁, hl₂, rfl, hsuffix, ?_⟩
    rcases List.prefix_or_prefix_of_prefix hprefix (List.prefix_append line ('\n' :: rest)) with
      hinside | ⟨tail, rfl⟩
    · exact hinside
    · -- Behind the line the occurrence would go on with a line feed
      rw [List.prefix_append_right_inj] at hprefix
      cases tail with
      | nil => rw [List.append_nil]
      | cons c tail =>
        obtain ⟨rfl, -⟩ := List.cons_prefix_cons.1 hprefix
        exact absurd (by simp) hline
  · rintro ⟨l₁, l₂, hl₁, hl₂, htoken, hsuffix, hprefix⟩
    exact ⟨l₁, l₂, hl₁, hl₂, htoken, hsuffix, hprefix.trans (List.prefix_append _ _)⟩

/-- A token of one line occurs in a line when it occurs in what stands before the line feed. -/
private theorem infix_concat_feed_iff (hne : token ≠ []) (hline : '\n' ∉ token) (line : List Char) :
    token <:+: line ++ ['\n'] ↔ token <:+: line := by
  have hfeed : ¬ token <:+: ['\n'] := by
    intro hwithin
    obtain ⟨c, hc⟩ := List.exists_mem_of_ne_nil token hne
    obtain rfl := List.mem_singleton.1 (hwithin.subset hc)
    exact hline hc
  have hseam : ¬ Straddles token line ['\n'] := by
    rw [show ['\n'] = [] ++ '\n' :: [] from rfl, straddles_line_iff hline]
    rintro ⟨l₁, l₂, -, hl₂, -, -, hprefix⟩
    exact hl₂ (List.prefix_nil.1 hprefix)
  rw [infix_append_iff_of_not_straddles hseam, or_iff_left hfeed]

/-- A token of one line occurs in a block of lines when it occurs in one of them. -/
theorem infix_flatten_iff (hne : token ≠ []) (hline : '\n' ∉ token) (ls : List (List Char)) :
    token <:+: (ls.map (· ++ ['\n'])).flatten ↔ ∃ l ∈ ls, token <:+: l := by
  induction ls with
  | nil => simpa using hne
  | cons line rest ih =>
    have hseam : ¬ Straddles token (line ++ ['\n']) (rest.map (· ++ ['\n'])).flatten :=
      not_straddles_of_getLast? hline (by simp) _
    rw [List.map_cons, List.flatten_cons, infix_append_iff_of_not_straddles hseam, ih,
      infix_concat_feed_iff hne hline]
    simp

/-! ## Declarations -/

variable {config : Config} {program : Program}

/-- The insertion is the declarations, one on each line. -/
theorem insertion_eq_flatten (config : Config) (hdeclarations : program.declarations ≠ []) :
    insertion config program =
      (((insertedDeclarations config program).map String.toList).map (· ++ ['\n'])).flatten := by
  have hblock : program.declarationBlock.toList =
      ((program.declarations.map String.toList).map (· ++ ['\n'])).flatten := by
    rw [Program.declarationBlock, String.toList_append, String.toList_intercalate]
    exact intercalate_append_separator _ (by simpa using hdeclarations)
  rw [insertion, hblock]
  simp [insertedDeclarations, Template.declarationLine]

/-- A token of one line is brought in by a declaration that it occurs in, or by the first one if it
    begins in a preamble that does not end its line. -/
theorem broughtIn_iff (hne : token ≠ []) (hline : '\n' ∉ token)
    (hdeclarations : program.declarations ≠ []) (before after : List Char) :
    BroughtIn token before (insertion config program) after ↔
      (∃ d ∈ insertedDeclarations config program, token <:+: d.toList) ∨
        Straddles token before (config.dialect.constant stepXName config.steps.x).toList := by
  have hflat := insertion_eq_flatten config hdeclarations
  have hinside : token <:+: insertion config program ↔
      ∃ d ∈ insertedDeclarations config program, token <:+: d.toList := by
    rw [hflat, infix_flatten_iff hne hline]
    simp
  obtain ⟨rest, hfirst⟩ : ∃ rest, insertion config program =
      (config.dialect.constant stepXName config.steps.x).toList ++ '\n' :: rest := by
    rw [hflat, insertedDeclarations, List.map_cons, List.map_cons, List.flatten_cons,
      List.append_assoc]
    exact ⟨_, rfl⟩
  have hlast : (insertion config program).getLast? = some '\n' := by
    rw [insertion, Program.declarationBlock, String.toList_append, ← List.append_assoc,
      List.getLast?_append]
    rfl
  have hbehind := not_straddles_of_getLast? hline hlast after
  rw [BroughtIn, or_iff_left hbehind, hinside, hfirst, List.append_assoc, List.cons_append,
    straddles_line_iff hline]

/-! ## Source -/

/-- There is no source from a template text, for want of the placeholder. -/
def MissesPlaceholder (k : Kernel) (text : String) (config : Config) : Prop :=
  generate k (Template.ofText text config.dialect) config =
    .error (.refused (.missingPlaceholder config.placeholder))

variable {k : Kernel} {text : String}

section Outcome

variable (hprogram : Program.ofKernel k config = .ok program)
  (hsplit : splitAtByte? (Template.preambleEnd text.toList) text.toList = some (before, after))
include hprogram hsplit

/-- For a kernel with a program there is source, or the placeholder is missing: it is empty, or occurs
    in no part of the text, and is not brought in. -/
theorem missesPlaceholder_iff :
    (MissesPlaceholder k text config ↔ config.placeholder.toList = [] ∨
      ¬ (config.placeholder.toList <:+: before ∨ config.placeholder.toList <:+: after ∨
        BroughtIn config.placeholder.toList before (insertion config program) after)) ∧
    (¬ MissesPlaceholder k text config →
      ∃ source, generate k (Template.ofText text config.dialect) config = .ok source) := by
  have hgenerate := generate_eq (Template.cutAt_ofText config.dialect hsplit) rfl hprogram
  rw [← infix_splice_iff, ← occurs_iff, MissesPlaceholder, hgenerate]
  split
  · rename_i hnone
    exact ⟨iff_of_true rfl (by simpa using hnone), fun hfound => absurd rfl hfound⟩
  · rename_i hfound
    exact ⟨iff_of_false (by simp) (by simpa using hfound), fun _ => ⟨_, rfl⟩⟩

end Outcome

/-- A placeholder of one line is missing when it occurs neither in the text nor in a declaration, nor
    begins in a preamble without line end and ends in the first declaration. -/
theorem missesPlaceholder_iff_of_line (hprogram : Program.ofKernel k config = .ok program)
    (hdeclarations : program.declarations ≠ [])
    (hsplit : splitAtByte? (Template.preambleEnd text.toList) text.toList = some (before, after))
    (hne : config.placeholder.toList ≠ []) (hline : '\n' ∉ config.placeholder.toList) :
    MissesPlaceholder k text config ↔ ¬ config.placeholder.toList <:+: text.toList ∧
      (∀ d ∈ insertedDeclarations config program, ¬ config.placeholder.toList <:+: d.toList) ∧
      ¬ Straddles config.placeholder.toList before
        (config.dialect.constant stepXName config.steps.x).toList := by
  obtain ⟨hmisses, -⟩ := missesPlaceholder_iff hprogram hsplit
  obtain ⟨htext, -⟩ := splitAtByte?_eq_some_iff.1 hsplit
  rw [hmisses, or_iff_right hne, broughtIn_iff hne hline hdeclarations, htext,
    infix_append_iff_of_not_straddles (not_straddles_template hline hsplit)]
  simp only [not_or, not_exists, not_and, and_assoc]

/-- Generation for a template text either gives source or refuses the text because the placeholder is
    missing.  There is source when the placeholder is not empty and occurs in the preamble, in the
    text behind it, or with a part in the declarations that are inserted between them.  So the text
    alone decides whether there is source if the placeholder is empty or occurs in one of its two
    parts, and otherwise only if the declarations bring an occurrence in just where they tear one
    apart.  A placeholder of one line is never torn apart; it is missing when it occurs neither in the
    text nor in a declaration, nor begins in a preamble without line end and ends in the first
    declaration. -/
theorem placeholder_found_iff (k : Kernel) (text : String) (config : Config)
    (hconsistent : k.isConsistent) (hne : k.weights ≠ [])
    (hcount : k.weights.length ≤ Kernel.weightLimit) :
    ∃ program before after, Program.ofKernel k config = .ok program ∧
      splitAtByte? (Template.preambleEnd text.toList) text.toList = some (before, after) ∧
      let token := config.placeholder.toList
      let inserted := insertion config program
      (¬ MissesPlaceholder k text config →
        ∃ source, generate k (Template.ofText text config.dialect) config = .ok source) ∧
      (MissesPlaceholder k text config ↔ token = [] ∨
        ¬ (token <:+: before ∨ token <:+: after ∨ BroughtIn token before inserted after)) ∧
      ((MissesPlaceholder k text config ↔ token = [] ∨ ¬ token <:+: text.toList) ↔
        token = [] ∨ token <:+: before ∨ token <:+: after ∨
          (BroughtIn token before inserted after ↔ Straddles token before after)) ∧
      (token ≠ [] → '\n' ∉ token →
        (MissesPlaceholder k text config ↔ ¬ token <:+: text.toList ∧
          (∀ d ∈ insertedDeclarations config program, ¬ token <:+: d.toList) ∧
          ¬ Straddles token before (config.dialect.constant stepXName config.steps.x).toList)) := by
  have hprogram := Program.ofKernel_eq_ok config hconsistent hne hcount
  have hdeclarations : (Program.whole k config).declarations ≠ [] := by
    simpa [Program.whole, Kernel.tapList] using hne
  obtain ⟨after, hsplit⟩ := Template.splitAtByte?_preambleEnd text.toList
  obtain ⟨hmisses, hsource⟩ := missesPlaceholder_iff hprogram hsplit
  refine ⟨_, _, after, hprogram, hsplit, hsource, hmisses, ?_,
    missesPlaceholder_iff_of_line hprogram hdeclarations hsplit⟩
  -- The text has the occurrences in its parts, and those that straddle the end of the preamble
  obtain ⟨htext, -⟩ := splitAtByte?_eq_some_iff.1 hsplit
  rw [hmisses, htext, infix_append_iff_straddles]
  grind

/-- A placeholder of one line that occurs in the text is found, as in the stock template. -/
theorem placeholder_found_iff_stock :
    Kernel.identity.isConsistent ∧ Kernel.identity.weights ≠ [] ∧
    Kernel.identity.weights.length ≤ Kernel.weightLimit ∧
    Template.standardPlaceholder.toList <:+: Template.glslText.toList ∧
    '\n' ∉ Template.standardPlaceholder.toList ∧
    ∃ source, generate Kernel.identity (Template.ofText Template.glslText .glsl) .standard =
      .ok source := by
  have hconsistent : Kernel.identity.isConsistent := by decide
  have hne : Kernel.identity.weights ≠ [] := List.cons_ne_nil _ _
  have hcount : Kernel.identity.weights.length ≤ Kernel.weightLimit := by decide
  have hoccurs : Template.standardPlaceholder.toList <:+: Template.glslText.toList := by
    rw [← occurs_iff, Template.glslText, Template.joinLines, String.toList_ofList]
    decide +kernel
  have hline : '\n' ∉ Template.standardPlaceholder.toList := by decide
  obtain ⟨_, _, _, -, -, hsource, -, -, hofLine⟩ :=
    placeholder_found_iff Kernel.identity Template.glslText .standard hconsistent hne hcount
  refine ⟨hconsistent, hne, hcount, hoccurs, hline, hsource fun hmisses => ?_⟩
  exact ((hofLine (by decide) hline).1 hmisses).1 hoccurs

/-- With a single weight the placeholder is looked for beside three declarations. -/
private theorem generate_single {text : String} (token : String)
    (hsplit : splitAtByte? (Template.preambleEnd text.toList) text.toList = some (before, after)) :
    generate ⟨[1], 1, 1⟩ (Template.ofText text .glsl)
        { Config.standard with placeholder := token } =
      if token.toList = [] ∨ !occurs token.toList
          (before ++ insertion .standard (Program.whole ⟨[1], 1, 1⟩ .standard) ++ after) then
        .error (.refused (.missingPlaceholder token))
      else
        .ok (String.ofList (replace token.toList
          (Program.whole ⟨[1], 1, 1⟩ .standard).statement.toList
          (before ++ insertion .standard (Program.whole ⟨[1], 1, 1⟩ .standard) ++ after))) :=
  generate_eq (Template.cutAt_ofText .glsl hsplit) rfl
    (Program.ofKernel_eq_ok _ (by decide) (List.cons_ne_nil _ _) (by decide))

/-- The text alone does not decide.  The name of a weight is found although the text does not hold it,
    and a placeholder of two lines is missing although the text ends in it. -/
theorem placeholder_not_sought_in_template :
    (¬ "Filter0".toList <:+: "void main() {}".toList ∧
      ∃ source, generate ⟨[1], 1, 1⟩ (Template.ofText "void main() {}" .glsl)
        { Config.standard with placeholder := "Filter0" } = .ok source) ∧
    "a\nb".toList <:+: "#a\nb".toList ∧
      generate ⟨[1], 1, 1⟩ (Template.ofText "#a\nb" .glsl)
        { Config.standard with placeholder := "a\nb" } =
          .error (.refused (.missingPlaceholder "a\nb")) := by
  have hbehind : splitAtByte? (Template.preambleEnd "void main() {}".toList)
      "void main() {}".toList = some ([], "void main() {}".toList) := by decide +kernel
  have hbetween : splitAtByte? (Template.preambleEnd "#a\nb".toList) "#a\nb".toList =
      some ("#a\n".toList, "b".toList) := by decide +kernel
  rw [generate_single "Filter0" hbehind, generate_single "a\nb" hbetween]
  refine ⟨⟨by decide, _, if_neg ?_⟩, by decide, if_pos ?_⟩
  · decide +kernel
  · decide +kernel

end Stencil.Shader
