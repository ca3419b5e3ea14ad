import Stencil.Proofs.Shader.Generation
import Stencil.Proofs.Shader.Phrases
import Stencil.Proofs.Text.Scan

/-!
# The layout of generated source

A template is cut where its preamble ends; the declarations stand between the two parts, and the
placeholder is replaced in each part as if the other were not there.  This needs a placeholder that
is `Apart` from the declarations.  No occurrence of it then straddles one of the three seams: not
the ends of the insertion, whose lines hold neither its first nor its last character, and not the
seam of the template itself, where a line ends.

## Key results

- `not_straddles_insertion` / `not_straddles_after` / `not_straddles_template`: the three seams
- `infix_spliced_iff` / `replace_spliced`: finding and replacing a token in the spliced text
- `generate_layout`: where everything stands in generated source
-/

namespace Stencil.Shader

open Text

/-! ## Tokens apart from the declarations -/

/-- All declarations that are inserted, in their order. -/
def insertedDeclarations (config : Config) (program : Program) : List String :=
  config.dialect.constant stepXName config.steps.x ::
    config.dialect.constant stepYName config.steps.y :: program.declarations

/-- A token of one line whose first and last characters stand in no declaration. -/
structure Apart (token : List Char) (declarations : List String) : Prop where
  ne_nil : token ≠ []
  one_line : '\n' ∉ token
  head_not_mem : ∀ c, token.head? = some c → ∀ d ∈ declarations, c ∉ d.toList
  getLast_not_mem : ∀ c, token.getLast? = some c → ∀ d ∈ declarations, c ∉ d.toList

variable {token : List Char} {config : Config} {program : Program}

/-- The insertion holds nothing but declarations and line feeds. -/
private theorem not_mem_insertion {c : Char} (hfeed : c ≠ '\n')
    (hfree : ∀ d ∈ insertedDeclarations config program, c ∉ d.toList) :
    c ∉ insertion config program := by
  intro hc
  rw [insertion, Template.declarationLine, Template.declarationLine, Program.declarationBlock,
    String.toList_append, String.toList_intercalate, List.mem_append, List.mem_append,
    List.mem_append, List.mem_append, List.mem_append, List.mem_singleton] at hc
  rcases hc with ((hx | hline) | (hy | hline)) | (hblock | hend)
  · -- The first step, then its line feed
    exact hfree _ List.mem_cons_self hx
  · exact hfeed hline
  · -- The second step, then its line feed
    exact hfree _ (List.mem_cons_of_mem _ List.mem_cons_self) hy
  · exact hfeed hline
  · -- The weights, joined by line feeds
    rcases mem_or_exists_of_mem_intercalate hblock with hseparator | ⟨piece, hpiece, hmem⟩
    · exact hfeed (List.mem_singleton.1 hseparator)
    · obtain ⟨d, hd, rfl⟩ := List.mem_map.1 hpiece
      exact hfree d (List.mem_cons_of_mem _ (List.mem_cons_of_mem _ hd)) hmem
  · exact hfeed (List.mem_singleton.1 hend)

/-- The insertion ends in a line feed. -/
private theorem feed_mem_insertion (config : Config) (program : Program) :
    '\n' ∈ insertion config program := by
  rw [insertion, Template.declarationLine]
  simp

/-- A token that is apart starts with no character of the insertion. -/
theorem Apart.head_not_mem_insertion (h : Apart token (insertedDeclarations config program))
    {c : Char} (hc : token.head? = some c) : c ∉ insertion config program := by
  have hfeed : c ≠ '\n' := by
    rintro rfl
    exact h.one_line (List.mem_of_mem_head? hc)
  exact not_mem_insertion hfeed (h.head_not_mem c hc)

/-- A token that is apart ends with no character of the insertion. -/
theorem Apart.getLast_not_mem_insertion (h : Apart token (insertedDeclarations config program))
    {c : Char} (hc : token.getLast? = some c) : c ∉ insertion config program := by
  have hfeed : c ≠ '\n' := by
    rintro rfl
    exact h.one_line (List.mem_of_getLast? hc)
  exact not_mem_insertion hfeed (h.getLast_not_mem c hc)

/-! ## The seams -/

/-- No occurrence of the token begins before the insertion and ends in it or behind it. -/
theorem not_straddles_insertion (h : Apart token (insertedDeclarations config program))
    (before after : List Char) : ¬ Straddles token before (insertion config program ++ after) := by
  rintro ⟨l₁, l₂, -, hl₂, rfl, -, hpre⟩
  rcases List.prefix_or_prefix_of_prefix hpre (List.prefix_append _ after) with hinside | hacross
  · -- The occurrence ends in the insertion, and with it the last character of the token.
    obtain ⟨c, hc⟩ := Option.isSome_iff_exists.1 (List.getLast?_isSome.2 hl₂)
    have hlast : (l₁ ++ l₂).getLast? = some c := by
      rw [List.getLast?_append, hc]
      rfl
    exact h.getLast_not_mem_insertion hlast (hinside.subset (List.mem_of_getLast? hc))
  · -- The occurrence spans the insertion, and with it a line feed.
    exact h.one_line (List.mem_append_right _ (hacross.subset (feed_mem_insertion config program)))

/-- No occurrence of the token begins in the insertion and ends behind it. -/
theorem not_straddles_after (h : Apart token (insertedDeclarations config program))
    (after : List Char) : ¬ Straddles token (insertion config program) after := by
  rintro ⟨l₁, l₂, hl₁, -, rfl, hsuffix, -⟩
  obtain ⟨c, rest, rfl⟩ := List.exists_cons_of_ne_nil hl₁
  exact h.head_not_mem_insertion rfl (hsuffix.subset List.mem_cons_self)

/-- The token does not occur inside the insertion. -/
theorem not_infix_insertion (h : Apart token (insertedDeclarations config program)) :
    ¬ token <:+: insertion config program := by
  intro hinside
  obtain ⟨c, rest, rfl⟩ := List.exists_cons_of_ne_nil h.ne_nil
  exact h.head_not_mem_insertion rfl (hinside.subset List.mem_cons_self)

/-- No occurrence of a token of one line begins in a text that ends its line and ends behind it. -/
theorem not_straddles_of_getLast? {before : List Char} (hline : '\n' ∉ token)
    (hlast : before.getLast? = some '\n') (after : List Char) : ¬ Straddles token before after := by
  rintro ⟨l₁, l₂, hl₁, -, rfl, ⟨front, rfl⟩, -⟩
  -- The part of the occurrence before the seam would end in a line feed
  obtain ⟨c, hc⟩ := Option.isSome_iff_exists.1 (List.getLast?_isSome.2 hl₁)
  rw [List.getLast?_append, hc, Option.some_or] at hlast
  obtain rfl := Option.some.inj hlast
  exact hline (List.mem_append_left _ (List.mem_of_getLast? hc))

/-- No occurrence of a token of one line straddles the end of a preamble. -/
theorem not_straddles_template {cs before after : List Char} (hline : '\n' ∉ token)
    (hcut : splitAtByte? (Template.preambleEnd cs) cs = some (before, after)) :
    ¬ Straddles token before after := by
  rcases Template.preamble_ends_line hcut with rfl | rfl | hlast
  · rintro ⟨l₁, -, hl₁, -, -, hsuffix, -⟩
    exact hl₁ (List.suffix_nil.1 hsuffix)
  · rintro ⟨-, l₂, -, hl₂, -, -, hprefix⟩
    exact hl₂ (List.prefix_nil.1 hprefix)
  · exact not_straddles_of_getLast? hline hlast after

/-! ## The spliced text -/

variable {cs before after : List Char}

/-- The token occurs in the spliced text when it occurs in the template. -/
theorem infix_spliced_iff (h : Apart token (insertedDeclarations config program))
    (hcut : splitAtByte? (Template.preambleEnd cs) cs = some (before, after)) :
    token <:+: before ++ insertion config program ++ after ↔ token <:+: cs := by
  obtain ⟨rfl, -⟩ := splitAtByte?_eq_some_iff.1 hcut
  -- The text is taken apart at the seams, and the insertion holds no occurrence
  have hinsertion := not_infix_insertion h
  rw [List.append_assoc, infix_append_iff_of_not_straddles (not_straddles_insertion h before after),
    infix_append_iff_of_not_straddles (not_straddles_after h after),
    infix_append_iff_of_not_straddles (not_straddles_template h.one_line hcut)]
  constructor
  · rintro (hbefore | hinside | hafter)
    · exact Or.inl hbefore
    · exact absurd hinside hinsertion
    · exact Or.inr hafter
  · rintro (hbefore | hafter)
    · exact Or.inl hbefore
    · exact Or.inr (Or.inr hafter)

/-- In the spliced text the token is replaced in both parts of the template, and the insertion
    stays. -/
theorem replace_spliced (h : Apart token (insertedDeclarations config program)) (new : List Char)
    (before after : List Char) :
    replace token new (before ++ insertion config program ++ after) =
      replace token new before ++ insertion config program ++ replace token new after := by
  have hfirst := overhang_eq_zero (not_straddles_insertion h before after)
  have hsecond := overhang_eq_zero (not_straddles_after h after)
  calc replace token new (before ++ insertion config program ++ after)
      = replace token new (before ++ (insertion config program ++ after)) := by
        rw [List.append_assoc]
    _ = replace token new before ++ replace token new (insertion config program ++ after) :=
        replace_append new _ hfirst
    _ = replace token new before ++
          (replace token new (insertion config program) ++ replace token new after) := by
        rw [replace_append new _ hsecond]
    _ = replace token new before ++ insertion config program ++ replace token new after := by
        rw [replace_of_not_occurs new (not_infix_insertion h), List.append_assoc]

/-! ## The standard placeholder -/

/-- A dollar sign stands in no declaration that is inserted for a kernel. -/
private theorem dollar_not_mem {k : Kernel} {d : String}
    (hd : d ∈ insertedDeclarations config (Program.whole k config)) : '$' ∉ d.toList := by
  have hwords : '$' ∉ config.dialect.constantStart ++ config.dialect.constantMiddle ++ [';'] := by
    cases config.dialect with
    | glsl => decide
    | wgsl => decide
  -- The two steps, then the weights
  rcases List.mem_cons.1 hd with rfl | hd
  · exact not_mem_constant (by decide) (by decide) (by decide) hwords
  rcases List.mem_cons.1 hd with rfl | hd
  · exact not_mem_constant (by decide) (by decide) (by decide) hwords
  · obtain ⟨tap, -, rfl⟩ := List.mem_map.1 hd
    have hname : '$' ∉ (weightName tap.index).toList :=
      not_mem_weightName (by decide) (by decide)
    exact not_mem_constant hname (by decide) (by decide) hwords

/-- The standard placeholder is apart from all declarations. -/
theorem apart_standardPlaceholder (k : Kernel) (config : Config) :
    Apart Template.standardPlaceholder.toList
      (insertedDeclarations config (Program.whole k config)) where
  ne_nil := by decide
  one_line := by decide
  head_not_mem := by
    intro c hc d hd
    obtain rfl : '$' = c := Option.some.inj hc
    exact dollar_not_mem hd
  getLast_not_mem := by
    intro c hc d hd
    obtain rfl : '$' = c := Option.some.inj hc
    exact dollar_not_mem hd

/-! ## Generated source -/

/-- Source that is generated from a template text has the declarations at the end of the preamble,
    and the placeholder replaced before and behind them.  Without placeholder in the text there is
    no source.  The standard placeholder is among those for which this holds. -/
theorem generate_layout (k : Kernel) (text : String) (config : Config)
    (hconsistent : k.isConsistent) (hne : k.weights ≠ [])
    (hcount : k.weights.length ≤ Kernel.weightLimit) :
    ∃ program before after, Program.ofKernel k config = .ok program ∧
      splitAtByte? (Template.preambleEnd text.toList) text.toList = some (before, after) ∧
      Apart Template.standardPlaceholder.toList (insertedDeclarations config program) ∧
      (Apart config.placeholder.toList (insertedDeclarations config program) →
        (config.placeholder.toList <:+: text.toList →
          generate k (Template.ofText text config.dialect) config = .ok (String.ofList
            (replace config.placeholder.toList program.statement.toList before ++
              insertion config program ++
              replace config.placeholder.toList program.statement.toList after))) ∧
        (¬ config.placeholder.toList <:+: text.toList →
          generate k (Template.ofText text config.dialect) config =
            .error (.refused (.missingPlaceholder config.placeholder)))) := by
  have hprogram := Program.ofKernel_eq_ok config hconsistent hne hcount
  obtain ⟨after, hsplit⟩ := Template.splitAtByte?_preambleEnd text.toList
  refine ⟨_, _, after, hprogram, hsplit, apart_standardPlaceholder k config, fun hapart => ?_⟩
  have hcut := Template.cutAt_ofText config.dialect hsplit
  rw [generate_eq hcut rfl hprogram]
  constructor
  · -- The placeholder is found, and replaced in both parts
    intro hoccurs
    have hfound := occurs_iff.2 ((infix_spliced_iff hapart hsplit).2 hoccurs)
    rw [hfound, if_neg, replace_spliced hapart]
    rintro (hempty | hnot)
    · exact hapart.ne_nil hempty
    · exact absurd hnot (by decide)
  · -- Nothing that was inserted brings an occurrence in
    intro hmissing
    have hnone := fun h => hmissing ((infix_spliced_iff hapart hsplit).1 (occurs_iff.1 h))
    rw [Bool.eq_false_iff.2 hnone]
    exact if_pos (Or.inr rfl)

/-- The stock template holds the standard placeholder, so there is source for the identity. -/
theorem generate_layout_identity :
    Kernel.identity.isConsistent ∧ Kernel.identity.weights ≠ [] ∧
    Kernel.identity.weights.length ≤ Kernel.weightLimit ∧
    Config.standard.placeholder.toList <:+: Template.glslText.toList ∧
    ∃ program before after, Program.ofKernel Kernel.identity .standard = .ok program ∧
      splitAtByte? (Template.preambleEnd Template.glslText.toList) Template.glslText.toList =
        some (before, after) ∧
      generate Kernel.identity (Template.ofText Template.glslText Config.standard.dialect)
          .standard = .ok (String.ofList
        (replace Config.standard.placeholder.toList program.statement.toList before ++
          insertion .standard program ++
          replace Config.standard.placeholder.toList program.statement.toList after)) := by
  have hconsistent : Kernel.identity.isConsistent := by decide
  have hne : Kernel.identity.weights ≠ [] := List.cons_ne_nil _ _
  have hcount : Kernel.identity.weights.length ≤ Kernel.weightLimit := by decide
  have hoccurs : Config.standard.placeholder.toList <:+: Template.glslText.toList := by
    rw [← occurs_iff, Template.glslText, Template.joinLines, String.toList_ofList]
    decide +kernel
  obtain ⟨program, before, after, hprogram, hsplit, hapart, hlayout⟩ :=
    generate_layout Kernel.identity Template.glslText .standard hconsistent hne hcount
  exact ⟨hconsistent, hne, hcount, hoccurs, program, before, after, hprogram, hsplit,
    (hlayout hapart).1 hoccurs⟩

end Stencil.Shader
