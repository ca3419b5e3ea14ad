import Stencil.Proofs.Decimal.RoundTrip
import Stencil.Proofs.Kernel.Grammar
import Stencil.Settings

/-!
# Written matrices are read back

The writer runs through the weights in one flat sequence and chooses what stands before a weight by
its index.  The reader cuts the text into rows and the rows into elements.  They meet in the rows of
the kernel: `writeWeights` writes the rows joined by `;`, each of them as its weights joined by `,`
(`writeWeights_flatten`), and joined pieces without delimiters are what `fields` gives back.

A kernel that is not a filled rectangle has no such text: whatever is read is one.

## Key results

- `exists_rows`: the weights of a filled rectangle are its rows, one behind the other
- `writeWeights_flatten`: the flat writer writes joined rows
- `parseChars_rowText`: joined rows of finite numbers are read as the kernel with these rows
- `parse_text`: a filled rectangle of finite weights is read back from its text
- `text_round_trip`: exactly the filled rectangles are read back, and writing out a matrix that was
  read changes nothing behind it
-/

namespace Stencil.Kernel

open Text

/-! ## Rows -/

/-- The weights of a filled rectangle are its rows, one behind the other. -/
private theorem exists_rows {width height : Nat} {ws : List Float32}
    (h : ws.length = width * height) :
    ∃ rows : List (List Float32), rows.length = height ∧ (∀ row ∈ rows, row.length = width) ∧
      rows.flatten = ws := by
  induction height generalizing ws with
  | zero =>
    obtain rfl : ws = [] := List.eq_nil_of_length_eq_zero (by omega)
    exact ⟨[], rfl, by simp, rfl⟩
  | succ height ih =>
    rw [Nat.mul_succ] at h
    -- The first row is cut off, and the rest is a rectangle with one row less
    have hbelow : (ws.drop width).length = width * height := by
      rw [List.length_drop]
      omega
    obtain ⟨rows, hheight, hwidth, hflat⟩ := ih hbelow
    refine ⟨ws.take width :: rows, by rw [List.length_cons, hheight], ?_, ?_⟩
    · intro row hrow
      rcases List.mem_cons.1 hrow with rfl | hrow
      · rw [List.length_take]
        omega
      · exact hwidth row hrow
    · rw [List.flatten_cons, hflat, List.take_append_drop]

/-- The text of a row. -/
def rowText (row : List Float32) : List Char :=
  [elementDelimiter].intercalate (row.map Decimal.writeSingle)

/-- Between two indices at which no row begins every weight stands behind a comma. -/
private theorem writeWeights_inside {width index : Nat} {row : List Float32}
    (hinside : ∀ j < row.length, (index + 1 + j) % width ≠ 0) (rest : List Float32) :
    writeWeights width (index + 1) (row ++ rest) =
      row.flatMap (fun w => elementDelimiter :: Decimal.writeSingle w) ++
        writeWeights width (index + 1 + row.length) rest := by
  induction row generalizing index with
  | nil => simp
  | cons w ws ih =>
    -- No row begins here, nor at any index up to the end of the row
    have hfirst : ¬ (0 < width ∧ (index + 1) % width = 0) :=
      fun h => hinside 0 (by simp) h.2
    have hrest : ∀ j < ws.length, (index + 1 + 1 + j) % width ≠ 0 := by
      intro j hj
      have hnext := hinside (j + 1) (by rw [List.length_cons]; omega)
      rwa [show index + 1 + (j + 1) = index + 1 + 1 + j by omega] at hnext
    rw [List.cons_append, writeWeights, separator, if_neg hfirst, ih hrest, List.flatMap_cons,
      List.length_cons, show index + 1 + (ws.length + 1) = index + 1 + 1 + ws.length by omega]
    simp only [List.cons_append, List.append_assoc]

/-- A row is written as its text, from its first weight to the first weight of the next row. -/
private theorem writeSingle_append_writeWeights {width index : Nat} {w : Float32} {ws : List Float32}
    (hbegin : index % width = 0) (hwidth : (w :: ws).length = width) (rest : List Float32) :
    Decimal.writeSingle w ++ writeWeights width (index + 1) (ws ++ rest) =
      rowText (w :: ws) ++ writeWeights width (index + width) rest := by
  rw [List.length_cons] at hwidth
  -- Behind the beginning of a row the next `width - 1` remainders are not zero
  have hinside : ∀ j < ws.length, (index + 1 + j) % width ≠ 0 := by
    intro j hj
    rw [Nat.add_assoc, Nat.add_mod, hbegin, Nat.zero_add, Nat.mod_mod, Nat.mod_eq_of_lt (by omega)]
    omega
  rw [writeWeights_inside hinside, rowText, List.map_cons, intercalate_cons_eq_flatMap,
    List.flatMap_map, List.append_assoc, show index + 1 + ws.length = index + width by omega]
  rfl

/-- Rows behind the first are written behind a semicolon each. -/
private theorem writeWeights_rows {width index : Nat} {rows : List (List Float32)} (hpos : 0 < width)
    (hindex : 0 < index) (hbegin : index % width = 0) (hwidth : ∀ row ∈ rows, row.length = width) :
    writeWeights width index rows.flatten = rows.flatMap fun row => rowDelimiter :: rowText row := by
  induction rows generalizing index with
  | nil =>
    obtain ⟨index, rfl⟩ := Nat.exists_eq_succ_of_ne_zero (Nat.ne_of_gt hindex)
    rfl
  | cons row rest ih =>
    have hrow : row.length = width := hwidth row List.mem_cons_self
    obtain ⟨w, ws, rfl⟩ := List.exists_cons_of_length_pos (by rw [hrow]; exact hpos)
    obtain ⟨index, rfl⟩ := Nat.exists_eq_succ_of_ne_zero (Nat.ne_of_gt hindex)
    have hnext : (index + 1 + width) % width = 0 := by rw [Nat.add_mod_right, hbegin]
    rw [List.flatten_cons, List.cons_append, writeWeights, separator, if_pos ⟨hpos, hbegin⟩,
      writeSingle_append_writeWeights hbegin hrow,
      ih (by omega) hnext fun r hr => hwidth r (List.mem_cons_of_mem _ hr), List.flatMap_cons]
    rfl

/-- The flat writer writes the rows, joined. -/
theorem writeWeights_flatten {width : Nat} {rows : List (List Float32)} (hpos : 0 < width)
    (hwidth : ∀ row ∈ rows, row.length = width) :
    writeWeights width 0 rows.flatten = [rowDelimiter].intercalate (rows.map rowText) := by
  cases rows with
  | nil => rfl
  | cons row rest =>
    have hrow : row.length = width := hwidth row List.mem_cons_self
    obtain ⟨w, ws, rfl⟩ := List.exists_cons_of_length_pos (by rw [hrow]; exact hpos)
    have hrest := writeWeights_rows hpos hpos (Nat.mod_self width)
      fun r hr => hwidth r (List.mem_cons_of_mem _ hr)
    rw [List.flatten_cons, List.cons_append, writeWeights,
      writeSingle_append_writeWeights (Nat.zero_mod width) hrow, Nat.zero_add, hrest, List.map_cons,
      intercalate_cons_eq_flatMap, List.flatMap_map]
    rfl

/-! ## Tokens -/

/-- Neither a blank nor a delimiter stands in a written number. -/
private theorem plain_of_mem_writeSingle {x : Float32} (hx : x.isFinite) {c : Char}
    (hc : c ∈ Decimal.writeSingle x) :
    isBlank c = false ∧ c ≠ elementDelimiter ∧ c ≠ rowDelimiter := by
  rcases Decimal.isDigit_or_mem_writeSingle hx hc with hdigit | hmark
  · refine ⟨isBlank_of_isDigit hdigit, ?_, ?_⟩
    · intro hsame
      subst hsame
      exact absurd hdigit (by decide)
    · intro hsame
      subst hsame
      exact absurd hdigit (by decide)
  · have hboth : c = '.' ∨ c = '-' := by simpa using hmark
    rcases hboth with rfl | rfl <;> decide

/-- A written number denotes the number. -/
theorem denotes_writeSingle {x : Float32} (hx : x.isFinite) : Denotes (Decimal.writeSingle x) x := by
  have htrim : trim (Decimal.writeSingle x) = Decimal.writeSingle x :=
    trim_of_forall fun c hc => (plain_of_mem_writeSingle hx hc).1
  rw [Denotes, htrim]
  exact Decimal.readSingle?_writeSingle hx

/-- The elements of a written row are its written weights. -/
private theorem elements_rowText {row : List Float32} (hne : row ≠ [])
    (hfinite : ∀ w ∈ row, w.isFinite) : elements (rowText row) = row.map Decimal.writeSingle := by
  refine fields_of_delimited ?_ ?_ ?_ (Or.inl rfl)
  · intro hnil
    exact hne (List.map_eq_nil_iff.1 hnil)
  · intro token htoken hmem
    obtain ⟨w, hw, rfl⟩ := List.mem_map.1 htoken
    exact (plain_of_mem_writeSingle (hfinite w hw) hmem).2.1 rfl
  · intro token htoken
    obtain ⟨w, hw, rfl⟩ := List.mem_map.1 htoken
    exact (denotes_writeSingle (hfinite w hw)).ne_nil

/-- A written row holds no semicolon. -/
private theorem rowDelimiter_not_mem_rowText {row : List Float32} (hfinite : ∀ w ∈ row, w.isFinite) :
    rowDelimiter ∉ rowText row := by
  intro hmem
  rcases mem_or_exists_of_mem_intercalate hmem with hcomma | ⟨token, htoken, hc⟩
  · exact absurd hcomma (by decide)
  · obtain ⟨w, hw, rfl⟩ := List.mem_map.1 htoken
    exact (plain_of_mem_writeSingle (hfinite w hw) hc).2.2 rfl

/-- The fields of a written matrix are its written rows. -/
private theorem fields_rows {rows : List (List Float32)} (hne : rows ≠ [])
    (hfull : ∀ row ∈ rows, row ≠ []) (hfinite : ∀ row ∈ rows, ∀ w ∈ row, w.isFinite) :
    fields rowDelimiter ([rowDelimiter].intercalate (rows.map rowText)) = rows.map rowText := by
  refine fields_of_delimited ?_ ?_ ?_ (Or.inl rfl)
  · intro hnil
    exact hne (List.map_eq_nil_iff.1 hnil)
  · intro line hline
    obtain ⟨row, hrow, rfl⟩ := List.mem_map.1 hline
    exact rowDelimiter_not_mem_rowText (hfinite row hrow)
  · intro line hline hnil
    obtain ⟨row, hrow, rfl⟩ := List.mem_map.1 hline
    -- A row has elements, so its text is not empty
    have helements := elements_rowText (hfull row hrow) (hfinite row hrow)
    rw [hnil] at helements
    exact hfull row hrow (List.map_eq_nil_iff.1 helements.symm)

/-! ## Reading back -/

/-- Every weight is denoted by its own text. -/
private theorem forall₂_writeSingle {ws : List Float32} (hfinite : ∀ w ∈ ws, w.isFinite) :
    List.Forall₂ Denotes (ws.map Decimal.writeSingle) ws := by
  rw [List.forall₂_map_left_iff, List.forall₂_same]
  exact fun w hw => denotes_writeSingle (hfinite w hw)

/-- Joined rows of finite numbers are read as the kernel with these rows. -/
theorem parseChars_rowText {width : Nat} {rows : List (List Float32)} (hpos : 0 < width)
    (hne : rows ≠ []) (hwidth : ∀ row ∈ rows, row.length = width)
    (hfinite : ∀ row ∈ rows, ∀ w ∈ row, w.isFinite) :
    parseChars ([rowDelimiter].intercalate (rows.map rowText)) =
      .ok ⟨rows.flatten, width, rows.length⟩ := by
  have hfull : ∀ row ∈ rows, row ≠ [] := by
    intro row hrow
    exact List.ne_nil_of_length_pos (by rw [hwidth row hrow]; exact hpos)
  have helements : ∀ row ∈ rows, elements (rowText row) = row.map Decimal.writeSingle :=
    fun row hrow => elements_rowText (hfull row hrow) (hfinite row hrow)
  rw [parseChars_eq_ok_iff, fields_rows hne hfull hfinite]
  refine ⟨hpos, List.length_map .., fun hnil => hne (List.map_eq_nil_iff.1 hnil), ?_, ?_⟩
  · intro line hline
    obtain ⟨row, hrow, rfl⟩ := List.mem_map.1 hline
    rw [helements row hrow, List.length_map, hwidth row hrow]
  · -- The tokens of all rows are the written weights, one behind the other
    have htokens : (rows.map rowText).flatMap elements = rows.flatten.map Decimal.writeSingle := by
      rw [List.flatMap_map, List.map_flatten, List.flatMap_def, List.map_congr_left helements]
    rw [htokens]
    refine forall₂_writeSingle fun w hw => ?_
    obtain ⟨row, hrow, hmem⟩ := List.mem_flatten.1 hw
    exact hfinite row hrow w hmem

/-- A filled rectangle of finite weights is read back from its text. -/
theorem parse_text {k : Kernel} (hne : k.weights ≠ []) (hconsistent : k.isConsistent)
    (hfinite : ∀ w ∈ k.weights, w.isFinite) : parse k.text = .ok k := by
  have hfilled : k.weights.length = k.width * k.height := ((isConsistent_iff k).1 hconsistent).symm
  -- A kernel with weights has columns and rows
  have hlength : 0 < k.weights.length := List.length_pos_iff.2 hne
  rw [hfilled] at hlength
  have hpos : 0 < k.width := Nat.pos_of_mul_pos_right hlength
  obtain ⟨rows, hheight, hwidth, hflat⟩ := exists_rows hfilled
  have hrows : rows ≠ [] := by
    intro hnil
    rw [hnil, List.flatten_nil] at hflat
    exact hne hflat.symm
  have hfiniteRows : ∀ row ∈ rows, ∀ w ∈ row, w.isFinite := by
    intro row hrow w hw
    exact hfinite w (hflat ▸ List.mem_flatten.2 ⟨row, hrow, hw⟩)
  -- The reader gives back the rows, and the writer wrote just these
  have hread := parseChars_rowText hpos hrows hwidth hfiniteRows
  rw [← writeWeights_flatten hpos hwidth, hflat, hheight] at hread
  rw [parse, text, String.toList_ofList]
  exact hread

/-- What is read is written so that it is read again. -/
theorem parse_text_of_parse {s : String} {k : Kernel} (h : parse s = .ok k) : parse k.text = .ok k := by
  obtain ⟨-, hconsistent⟩ := shape_of_parseChars h
  exact parse_text (weights_ne_nil_of_parseChars h) hconsistent (isFinite_of_parseChars h)

end Stencil.Kernel

namespace Stencil.Settings

/-! ## Settings whose matrix is written out -/

/-- Finite weights are read back from the text of a kernel, with the same dimensions and the same
    bits, exactly when they are a filled rectangle.  Writing out the matrix of settings as it was
    read leaves their kernel and their shader as they are. -/
theorem text_round_trip :
    (∀ k : Kernel, (∀ w ∈ k.weights, w.isFinite) →
      (Kernel.parse k.text = .ok k ↔ k.weights ≠ [] ∧ k.width * k.height = k.weights.length)) ∧
    ∀ (s : Settings) (k : Kernel), Kernel.parse s.matrix = .ok k →
      Kernel.parse k.text = .ok k ∧ { s with matrix := k.text }.kernel = s.kernel ∧
        ∀ template config,
          { s with matrix := k.text }.shader template config = s.shader template config := by
  refine ⟨fun k hfinite => ⟨fun hread => ?_, fun ⟨hne, hfilled⟩ => ?_⟩, fun s k hread => ?_⟩
  · exact ⟨Kernel.weights_ne_nil_of_parseChars hread,
      (Kernel.isConsistent_iff k).1 (Kernel.shape_of_parseChars hread).2⟩
  · exact Kernel.parse_text hne ((Kernel.isConsistent_iff k).2 hfilled) hfinite
  · have hagain := Kernel.parse_text_of_parse hread
    have hkernel : { s with matrix := k.text }.kernel = s.kernel := by
      rw [kernel, kernel, hread, hagain]
    refine ⟨hagain, hkernel, fun template config => ?_⟩
    rw [shader, shader, hkernel]

/-- A matrix with both zeros, and the identity. -/
theorem text_round_trip_zeros :
    Kernel.parse (Kernel.text ⟨[0, Precision.negativeZero], 1, 2⟩) =
        .ok ⟨[0, Precision.negativeZero], 1, 2⟩ ∧
      (∃ k, Kernel.parse standard.matrix = .ok k ∧
        { standard with matrix := k.text }.kernel = standard.kernel) := by
  have hread : Kernel.parse standard.matrix = .ok ⟨[0, 0, 0, 0, 1, 0, 0, 0, 0], 3, 3⟩ := by
    decide +kernel
  refine ⟨(text_round_trip.1 _ (by decide)).2 (by decide), ⟨_, hread, ?_⟩⟩
  exact (text_round_trip.2 standard _ hread).2.1

end Stencil.Settings
