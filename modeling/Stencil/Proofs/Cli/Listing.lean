import Stencil.Proofs.Cli.Printing
import Stencil.Proofs.Pipeline
import Stencil.Proofs.Shader.Denotation
import Stencil.Proofs.Text.Words

/-!
# What is shown is what is generated

The listing of a kernel is a table of its taps and a grid of its weights, behind a few lines about
the matrix.  Both are written from the kernel that a shader is generated for, with the same number of
places, so a line of the table read as words holds the literal and the offsets of the generated code.

## Key results

- `words_tapLine`: a line of the table, read as words
- `rows_of_length`: a filled rectangle falls into its rows
- `lines_listingText`: the parts of a listing, line by line
- `exists_inspection_iff`: when a kernel can be shown
- `inspection_shows_program`: the listing beside the generated code
-/

namespace Stencil.Cli

open Text
open Shader (Config Program readDeclaration? readTerm? weightName stepXName stepYName)

/-! ## Numbers as words -/

/-- No blank stands in a number with fixed places. -/
private theorem isBlank_of_mem_fixed {places : ℕ} {x : Float32} {c : Char}
    (hc : c ∈ (Decimal.fixed places x).toList) : isBlank c = false := by
  have hlist : Decimal.marks = ['-', '.', 'N', 'a', 'N', 'i', 'n', 'f'] := rfl
  have hmarks : ∀ d ∈ Decimal.marks, isBlank d = false := by
    rw [hlist]
    simp [isBlank, blankRanges]
  rw [Decimal.fixed, String.toList_ofList] at hc
  rcases Decimal.isDigit_or_mem_marks hc with hdigit | hmark
  · exact isBlank_of_isDigit hdigit
  · exact hmarks c hmark

/-- A number with fixed places is one word. -/
theorem words_fixed (places : ℕ) (x : Float32) :
    words (Decimal.fixed places x).toList = [(Decimal.fixed places x).toList] :=
  words_of_forall (Decimal.fixed_ne_nil places x) fun _ => isBlank_of_mem_fixed

/-- A natural number is written with digits. -/
private theorem isDigit_of_mem_natText {n : ℕ} {c : Char} (hc : c ∈ (natText n).toList) :
    c.isDigit := by
  rw [natText, String.toList_ofList] at hc
  exact Nat.isDigit_of_mem_toDigits (by decide) (by decide) hc

/-- A natural number is one word. -/
theorem words_natText (n : ℕ) : words (natText n).toList = [Nat.toDigits 10 n] := by
  have hfree : ∀ c ∈ (natText n).toList, isBlank c = false := fun _ hc =>
    isBlank_of_isDigit (isDigit_of_mem_natText hc)
  rw [natText, String.toList_ofList] at hfree ⊢
  exact words_of_forall Nat.toDigits_ne_nil hfree

/-- A column holds spaces and the characters of its text. -/
private theorem not_mem_alignRight {width : ℕ} {s : String} {c : Char} (hspace : c ≠ ' ')
    (hc : c ∉ s.toList) : c ∉ (alignRight width s).toList := by
  rw [alignRight, String.toList_ofList, List.mem_append, not_or]
  exact ⟨fun h => hspace (List.eq_of_mem_replicate h), hc⟩

/-- No line feed stands in a natural number. -/
private theorem feed_not_mem_natText (n : ℕ) : '\n' ∉ (natText n).toList := by
  intro hc
  exact absurd (isDigit_of_mem_natText hc) (by decide)

/-- No line feed stands in a number with the fewest digits. -/
private theorem feed_not_mem_shortestChars (readsBack : Decimal → Bool)
    (u : Float.Model.UnpackedFloat) : '\n' ∉ Decimal.shortestChars readsBack u := by
  intro hc
  rcases Decimal.isDigit_or_mem_marks_of_shortest hc with hdigit | hmark
  · exact absurd hdigit (by decide)
  · exact absurd hmark (by decide)

/-- A line is its text and a line feed. -/
private theorem toList_line (s : String) : (line s).toList = s.toList ++ ['\n'] := by
  rw [line, String.toList_append]
  rfl

/-- A text without line feed is made a line. -/
private theorem isLine_line {s : String} (h : '\n' ∉ s.toList) : IsLine (line s).toList :=
  ⟨s.toList, toList_line s, h⟩

/-- A text without line feed that is not empty is made a block. -/
private theorem isBlock_line {s : String} (h : '\n' ∉ s.toList) (hne : s.toList ≠ []) :
    IsBlock (line s).toList := by
  rw [toList_line]
  exact isBlock_append_feed h hne

/-- The words of a line are those of its text. -/
private theorem words_line (s : String) : words (line s).toList = words s.toList := by
  rw [toList_line]
  exact words_append_feed s.toList

/-! ## The table -/

/-- A line of the table is read as the index of its tap, the weight, and the offsets. -/
theorem words_tapLine (tap : Kernel.Tap) :
    words (tapLine tap).toList = [Nat.toDigits 10 tap.index,
      (Decimal.fixed Dialect.constantPlaces tap.weight).toList,
      (Decimal.fixed Dialect.offsetPlaces tap.offset.x).toList,
      (Decimal.fixed Dialect.offsetPlaces tap.offset.y).toList] := by
  have hgap : ∀ front back : List Char, words (front ++ ("  ".toList ++ back)) =
      words front ++ words back := by
    intro front back
    show words (front ++ ' ' :: ' ' :: back) = _
    rw [words_append_cons (by decide), words_cons (by decide)]
  unfold tapLine
  rw [words_line]
  simp only [String.toList_append, List.append_assoc, hgap, words_alignRight, words_natText,
    words_fixed, List.singleton_append]

/-- A line of the table is a line. -/
private theorem isLine_tapLine (tap : Kernel.Tap) : IsLine (tapLine tap).toList := by
  have hfixed : ∀ places x width, '\n' ∉ (alignRight width (Decimal.fixed places x)).toList :=
    fun _ _ _ => not_mem_alignRight (by decide) (Decimal.not_mem_fixed (by decide) (by decide))
  have hindex : '\n' ∉ (alignRight 5 (natText tap.index)).toList :=
    not_mem_alignRight (by decide) (feed_not_mem_natText tap.index)
  have hgap : '\n' ∉ "  ".toList := by decide
  refine isLine_line ?_
  simp only [String.toList_append, List.mem_append, not_or]
  exact ⟨⟨⟨⟨⟨⟨hindex, hgap⟩, hfixed _ _ _⟩, hgap⟩, hfixed _ _ _⟩, hgap⟩, hfixed _ _ _⟩

/-! ## The grid -/

/-- A filled rectangle falls into as many rows as it has, each as long as it is wide. -/
theorem rows_of_length {width height count : ℕ} {weights : List Float32} (hwidth : 0 < width)
    (hlength : weights.length = width * height) (hcount : height ≤ count) :
    (rows width count weights).length = height ∧ (rows width count weights).flatten = weights ∧
      ∀ row ∈ rows width count weights, row.length = width := by
  induction count generalizing height weights with
  | zero =>
    obtain rfl : height = 0 := Nat.le_zero.1 hcount
    obtain rfl : weights = [] := List.eq_nil_of_length_eq_zero (by rw [hlength, Nat.mul_zero])
    simp [rows]
  | succ count ih =>
    cases height with
    | zero =>
      obtain rfl : weights = [] := List.eq_nil_of_length_eq_zero (by rw [hlength, Nat.mul_zero])
      simp [rows]
    | succ height =>
      -- A row is cut off, and the rest is a rectangle with one row less
      rw [Nat.mul_succ] at hlength
      have hfull : weights.isEmpty = false := by
        rw [List.isEmpty_eq_false_iff, ← List.length_pos_iff]
        omega
      have hrest : (weights.drop width).length = width * height := by
        rw [List.length_drop]
        omega
      obtain ⟨hrows, hflatten, hlengths⟩ := ih hrest (by omega)
      rw [rows, hfull]
      refine ⟨?_, ?_, ?_⟩
      · simp [hrows]
      · simp [hflatten]
      · intro row hrow
        rcases List.mem_cons.1 hrow with rfl | hrow
        · rw [List.length_take]
          omega
        · exact hlengths row hrow

/-- The line of a row. -/
def rowLine (row : List Float32) : List Char := (line (" ".intercalate (row.map cell))).toList

/-- A line of the grid is read as the weights of its row. -/
theorem words_rowLine (row : List Float32) :
    words (rowLine row) =
      row.map fun weight => (Decimal.fixed Dialect.constantPlaces weight).toList := by
  have hcell : ∀ weight, words (cell weight).toList =
      [(Decimal.fixed Dialect.constantPlaces weight).toList] := by
    intro weight
    rw [cell, words_alignRight, words_fixed]
  have hspace : " ".toList = [' '] := rfl
  rw [rowLine, words_line, String.toList_intercalate, hspace, words_intercalate, List.map_map,
    List.flatMap_map]
  simp only [Function.comp_apply, hcell, List.map_eq_flatMap]

/-- A line of the grid is a line. -/
private theorem isLine_rowLine (row : List Float32) : IsLine (rowLine row) := by
  refine isLine_line ?_
  rw [String.toList_intercalate]
  intro hc
  rcases mem_or_exists_of_mem_intercalate hc with hspace | ⟨piece, hpiece, hc⟩
  · exact absurd hspace (by decide)
  · simp only [List.map_map, List.mem_map, Function.comp_apply] at hpiece
    obtain ⟨weight, -, rfl⟩ := hpiece
    exact not_mem_alignRight (by decide) (Decimal.not_mem_fixed (by decide) (by decide)) hc

/-! ## The head -/

/-- The line about the size is a block. -/
theorem isBlock_sizeLine (raw : Kernel) : IsBlock (sizeLine raw).toList := by
  refine isBlock_line ?_ ?_
  · simp only [String.toList_append, Dialect.toString_string, List.mem_append, not_or,
      feed_not_mem_natText]
    decide
  · simp only [String.toList_append, Dialect.toString_string]
    simp

/-- The line about the sum is a block. -/
theorem isBlock_sumLine (raw : Kernel) : IsBlock (sumLine raw).toList := by
  have hsum : '\n' ∉ (shortText raw.sum).toList := by
    rw [shortText, String.toList_ofList]
    exact feed_not_mem_shortestChars _ _
  refine isBlock_line ?_ (by simp)
  simp only [String.toList_append, List.mem_append, not_or, hsum]
  decide

/-- The line about the divisor is a block. -/
theorem isBlock_normalizationLine (raw : Kernel) : IsBlock (normalizationLine raw).toList := by
  unfold normalizationLine
  split
  · rename_i d _
    have hdivisor : '\n' ∉ Decimal.writeDouble d := feed_not_mem_shortestChars _ _
    refine isBlock_line ?_ (by simp)
    simp only [String.toList_append, String.toList_ofList, List.mem_append, not_or, hdivisor]
    decide
  · exact isBlock_line (by decide) (by decide)

/-- The line about the central cell is a block. -/
theorem isBlock_centerLine (k : Kernel) : IsBlock (centerLine k).toList := by
  refine isBlock_line ?_ ?_
  · simp only [String.toList_append, Dialect.toString_string, List.mem_append, not_or,
      feed_not_mem_natText]
    decide
  · simp only [String.toList_append, Dialect.toString_string]
    simp

/-! ## The listing -/

/-- Blocks one behind the other are a block. -/
theorem isBlock_join {l : List String} (h : ∀ s ∈ l, IsBlock s.toList) :
    IsBlock (String.join l).toList := by
  induction l with
  | nil => exact isBlock_nil
  | cons s l ih =>
    rw [String.join_cons, String.toList_append]
    exact (h s List.mem_cons_self).append (ih fun t ht => h t (List.mem_cons_of_mem s ht))

/-- What stands over the grid is a block, whichever of its lines are there. -/
theorem isBlock_headLines (raw k : Kernel) (normalize verbose : Bool) :
    IsBlock (String.join (headLines raw k normalize verbose)).toList := by
  have hoptional : ∀ (shown : Bool) {s : String}, IsBlock s.toList →
      ∀ piece ∈ (if shown then [s] else []), IsBlock piece.toList := by
    intro shown s hs piece hpiece
    cases shown with
    | false => cases hpiece
    | true =>
      obtain rfl := List.mem_singleton.1 hpiece
      exact hs
  refine isBlock_join ?_
  simp only [headLines, List.forall_mem_append, List.forall_mem_cons]
  exact ⟨⟨⟨isBlock_sizeLine raw, isBlock_sumLine raw, List.forall_mem_nil _⟩,
    hoptional normalize (isBlock_normalizationLine raw)⟩, hoptional verbose (isBlock_centerLine k)⟩

/-- The lines of the grid. -/
def gridLines (k : Kernel) : List (List Char) :=
  (rows (max k.width 1) k.weights.length k.weights).map rowLine

/-- The lines of the table. -/
def tableLines (taps : List Kernel.Tap) : List (List Char) :=
  taps.map fun tap => (tapLine tap).toList

/-- The parts of a listing, one behind the other. -/
def listingText (head : String) (k : Kernel) (taps : List Kernel.Tap) : String :=
  head ++ line "" ++ grid k ++ line "" ++ tapHeading ++ String.join (taps.map tapLine)

/-- A listing consists of its lines. -/
private theorem toList_listingText {head : String} {ls : List (List Char)}
    (h : head.toList = ls.flatten) (k : Kernel) (taps : List Kernel.Tap) :
    (listingText head k taps).toList =
      (ls ++ ['\n'] :: gridLines k ++ ['\n'] :: tapHeading.toList :: tableLines taps).flatten := by
  have hempty : (line "").toList = ['\n'] := rfl
  simp only [listingText, String.toList_append, h, hempty, grid, String.toList_join, gridLines,
    tableLines, List.flatten_append, List.flatten_cons, List.flatMap_def, List.map_map,
    Function.comp_def, List.append_assoc]
  rfl

/-- A listing is cut at its two empty lines into the lines about the matrix, the grid, and the table
    under its heading. -/
theorem lines_listingText {head : String} (h : IsBlock head.toList) (k : Kernel)
    (taps : List Kernel.Tap) :
    ∃ ls, ['\n'] ∉ ls ∧ lines (listingText head k taps).toList =
      ls ++ ['\n'] :: gridLines k ++ ['\n'] :: tapHeading.toList :: tableLines taps := by
  obtain ⟨ls, hflatten, hls⟩ := h
  have hfeed : IsLine ['\n'] := ⟨[], rfl, List.not_mem_nil⟩
  have hheading : IsLine tapHeading.toList := isLine_line (by decide)
  refine ⟨ls, fun hmem => (hls _ hmem).2 rfl, ?_⟩
  rw [toList_listingText hflatten, lines_flatten]
  simp only [List.forall_mem_append, List.forall_mem_cons, gridLines, tableLines,
    List.forall_mem_map]
  exact ⟨⟨fun l hl => (hls l hl).1, hfeed, fun row _ => isLine_rowLine row⟩, hfeed, hheading,
    fun tap _ => isLine_tapLine tap⟩

/-! ## The listing beside the generated code -/

/-- The pieces of a listing are all printed when all taps can be computed. -/
theorem kernelPieces_of_taps {raw k : Kernel} {normalize : Bool} {taps : List Kernel.Tap}
    (hk : k = if normalize then raw.normalized else raw) (htaps : k.taps = .ok taps)
    (verbose : Bool) :
    kernelPieces raw normalize verbose =
      (headLines raw k normalize verbose ++ [line "", grid k, line "", tapHeading] ++
        taps.map tapLine).map .ok := by
  have hlines : (k.weights.zipIdx.map fun entry => (k.tap entry.2 entry.1).map tapLine) =
      (taps.map tapLine).map .ok := by
    have hcomputed := map_eq_map_ok_of_mapM_eq_ok htaps
    have hmapped := congrArg (List.map (Except.map tapLine)) hcomputed
    rw [List.map_map, List.map_map] at hmapped
    rw [List.map_map]
    exact hmapped
  rw [List.map_append, ← hlines]
  subst hk
  rfl

/-- The kernel that is shown is the kernel of the settings. -/
theorem inspection_of_kernel {s : Settings} {k : Kernel} (h : s.kernel = .ok k)
    (htaps : k.taps = .ok k.tapList) (verbose : Bool) :
    ∃ raw, inspection s verbose = .ok
      (listingText (String.join (headLines raw k s.normalize verbose)) k k.tapList) := by
  obtain ⟨raw, hparse, hk⟩ := Settings.kernel_eq_ok_iff.1 h
  refine ⟨raw, ?_⟩
  rw [inspection_eq, hparse]
  dsimp only
  rw [kernelPieces_of_taps hk htaps, mapM_id_map_ok]
  simp [listingText, Except.mapError, Except.map, String.append_assoc]

/-- A kernel can be shown when the settings have one. -/
theorem exists_inspection_iff {s : Settings}
    (hlength : (byteLength s.matrix.toList : ℤ) < Word.signedLimit) (verbose : Bool) :
    (∃ listing, inspection s verbose = .ok listing) ↔ ∃ k, s.kernel = .ok k := by
  constructor
  · rintro ⟨listing, h⟩
    cases hparse : Kernel.parse s.matrix with
    | error cause =>
      rw [inspection_eq, hparse] at h
      exact nomatch h
    | ok raw => exact Settings.exists_kernel hparse
  · rintro ⟨k, h⟩
    obtain ⟨raw, hshown⟩ := inspection_of_kernel h (Settings.taps_of_kernel h hlength) verbose
    exact ⟨_, hshown⟩

/-- The lines of the grid are the rows of a consistent kernel. -/
theorem gridLines_of_isConsistent {k : Kernel} (hconsistent : k.isConsistent)
    (hne : k.weights ≠ []) :
    (gridLines k).length = k.height ∧
      (∀ line ∈ gridLines k, (words line).length = k.width) ∧
      (gridLines k).flatMap words =
        k.weights.map fun weight => (Decimal.fixed Dialect.constantPlaces weight).toList := by
  obtain ⟨hwidth, -, -, hheight⟩ := Kernel.sides_le_of_isConsistent hconsistent hne
  have hproduct : k.weights.length = k.width * k.height :=
    ((Kernel.isConsistent_iff k).1 hconsistent).symm
  obtain ⟨hrows, hflatten, hlengths⟩ := rows_of_length hwidth hproduct hheight
  rw [gridLines, max_eq_left hwidth]
  refine ⟨by rw [List.length_map, hrows], ?_, ?_⟩
  · simp only [List.forall_mem_map, words_rowLine, List.length_map]
    exact hlengths
  · conv_rhs => rw [← hflatten]
    simp only [List.flatMap_def, List.map_flatten, List.map_map, Function.comp_def, words_rowLine]

/-- The literal of a declaration, read from its line. -/
def literal? (dialect : Dialect) (declaration : String) : Option (List Char) :=
  (readDeclaration? dialect (declaration.toList ++ ['\n'])).map Shader.Declaration.literal

/-- The literals of a program are those of the weights, in order. -/
theorem map_literal?_declarations {k : Kernel} (htaps : k.taps = .ok k.tapList) (config : Config) :
    (Program.whole k config).declarations.map (literal? config.dialect) =
      k.weights.map fun weight => some (Decimal.fixed Dialect.constantPlaces weight).toList := by
  have hliteral : ∀ tap, literal? config.dialect (Program.declaration config.dialect tap) =
      some (Decimal.fixed Dialect.constantPlaces tap.weight).toList := by
    intro tap
    rw [literal?, Shader.readDeclaration?_declaration]
    rfl
  simp only [Program.whole, List.map_map, Function.comp_def, hliteral]
  rw [← Kernel.weights_of_taps htaps, List.map_map]
  rfl

/-- A kernel can be shown when the settings have one, and what is shown is what is generated.  The
    grid has a line for each row, and the words of its lines are the literals of the declarations.
    The table has a line for each weight, and its words are the index, the literal that the weight is
    declared with, and the two numbers that scale the steps in its term. -/
theorem inspection_shows_program (s : Settings) (verbose : Bool)
    (hlength : (byteLength s.matrix.toList : ℤ) < Word.signedLimit) :
    ((∃ listing, inspection s verbose = .ok listing) ↔ ∃ k, s.kernel = .ok k) ∧
    ∀ listing k, inspection s verbose = .ok listing → s.kernel = .ok k →
      ∃ head grid table,
        lines listing.toList = head ++ ['\n'] :: grid ++ ['\n'] :: tapHeading.toList :: table ∧
        ['\n'] ∉ head ∧ ['\n'] ∉ grid ∧
        grid.length = k.height ∧ (∀ row ∈ grid, (words row).length = k.width) ∧
        table.length = k.weights.length ∧
        ∀ config : Config, ∃ program, Program.ofKernel k config = .ok program ∧
          program.declarations.length = k.weights.length ∧
          program.terms.length = k.weights.length ∧
          (grid.flatMap words).map some = program.declarations.map (literal? config.dialect) ∧
          ∀ i weight, k.weights[i]? = some weight →
            ∃ row declaration literal term fetch, table[i]? = some row ∧
              program.declarations[i]? = some declaration ∧
              readDeclaration? config.dialect (declaration.toList ++ ['\n']) =
                some ⟨(weightName i).toList, literal⟩ ∧
              program.terms[i]? = some term ∧ readTerm? config.dialect term.toList = some fetch ∧
              fetch.stepX = stepXName.toList ∧ fetch.stepY = stepYName.toList ∧
              fetch.weight = (weightName i).toList ∧
              words row = [Nat.toDigits 10 i, literal, fetch.x, fetch.y] := by
  refine ⟨exists_inspection_iff hlength verbose, fun listing k hlisting hkernel => ?_⟩
  obtain ⟨hconsistent, hne, -⟩ := Settings.kernel_bounds hkernel
  have htaps := Settings.taps_of_kernel hkernel hlength
  obtain ⟨raw, hshown⟩ := inspection_of_kernel hkernel htaps verbose
  obtain rfl := Except.ok.inj (hshown.symm.trans hlisting)
  obtain ⟨head, hhead, hlines⟩ :=
    lines_listingText (isBlock_headLines raw k s.normalize verbose) k k.tapList
  obtain ⟨hheight, hwidth, hwords⟩ := gridLines_of_isConsistent hconsistent hne
  refine ⟨head, gridLines k, tableLines k.tapList, hlines, hhead, ?_, hheight, hwidth,
    by simp [tableLines], fun config => ?_⟩
  · -- An empty line has no words, and a row has some
    intro hempty
    have hpositive := (Kernel.sides_le_of_isConsistent hconsistent hne).1
    have hnone : words ['\n'] = [] := words_append_feed []
    rw [← hwidth _ hempty, hnone] at hpositive
    exact absurd hpositive (by simp)
  refine ⟨_, Program.ofKernel_of_taps config hconsistent hne htaps, by simp [Program.whole],
    by simp [Program.whole], ?_, fun i weight hweight => ?_⟩
  · -- The words of the grid and the declarations are made from the weights in the same order
    rw [hwords, map_literal?_declarations htaps, List.map_map]
    rfl
  · have htap : k.tapList[i]? = some (k.tapAt i weight) := by
      rw [Kernel.getElem?_tapList, hweight]
      rfl
    refine ⟨_, _, _, _, _, ?_, ?_,
      Shader.readDeclaration?_declaration config.dialect (k.tapAt i weight), ?_,
      Shader.readTerm?_termOf config.dialect (k.tapAt i weight), rfl, rfl, rfl,
      words_tapLine (k.tapAt i weight)⟩
    · rw [tableLines, List.getElem?_map, htap, Option.map_some]
    · rw [Program.whole, List.getElem?_map, htap, Option.map_some]
    · rw [Program.whole, List.getElem?_map, htap, Option.map_some]

/-- The identity is shown in three rows, and the last line of its table is about `Filter8`. -/
theorem inspection_shows_program_standard :
    (byteLength Settings.standard.matrix.toList : ℤ) < Word.signedLimit ∧
    ∃ listing head grid table, inspection Settings.standard true = .ok listing ∧
      lines listing.toList = head ++ ['\n'] :: grid ++ ['\n'] :: tapHeading.toList :: table ∧
      grid.length = 3 ∧ table.length = 9 ∧
      ∃ program row declaration literal term fetch,
        Program.ofKernel Kernel.identity.normalized .standard = .ok program ∧
        table[8]? = some row ∧ program.declarations[8]? = some declaration ∧
        readDeclaration? .glsl (declaration.toList ++ ['\n']) =
          some ⟨"Filter8".toList, literal⟩ ∧
        program.terms[8]? = some term ∧ readTerm? .glsl term.toList = some fetch ∧
        words row = [['8'], literal, fetch.x, fetch.y] := by
  have hlength : (byteLength Settings.standard.matrix.toList : ℤ) < Word.signedLimit := by decide
  have hkernel : Settings.standard.kernel = .ok Kernel.identity.normalized := rfl
  have hcount := Kernel.length_normalized Kernel.identity
  obtain ⟨hiff, hshows⟩ := inspection_shows_program Settings.standard true hlength
  obtain ⟨listing, hlisting⟩ := hiff.2 ⟨_, hkernel⟩
  obtain ⟨head, grid, table, hlines, -, -, hgrid, -, htable, hprogram⟩ :=
    hshows listing _ hlisting hkernel
  obtain ⟨program, hprogram, -, -, -, hweights⟩ := hprogram .standard
  obtain ⟨row, declaration, literal, term, fetch, hrow, hdeclaration, hliteral, hterm, hfetch, -, -,
    -, hwords⟩ := hweights 8 _ (List.getElem?_eq_getElem (by rw [hcount]; decide))
  exact ⟨hlength, listing, head, grid, table, hlisting, hlines, hgrid, htable.trans hcount, program,
    row, declaration, literal, term, fetch, hprogram, hrow, hdeclaration, hliteral, hterm, hfetch,
    hwords⟩

end Stencil.Cli
