import Stencil.Proofs.Yaml.Scanning
import Stencil.Yaml.Value

/-!
# Reading a record

The tokens of a record give a mapping from names to values, and the mapping gives the fields of the
record, in the order of its lines.

## Key results

- `Node.readBlockPairs_lines`: the lines of a record, one entry each
- `fields_recordText`: the fields of a record that is written line by line
-/

namespace Stencil.Yaml

/-- The node of a value. -/
def FieldValue.node (value : FieldValue) : Node := .scalar .none value.style value.text

/-- The entry of a line. -/
def FieldLine.entry (line : FieldLine) : Node × Node :=
  (.scalar .none .plain line.name, line.value.node)

/-- The field of a line. -/
def FieldLine.field (line : FieldLine) : String × Node :=
  (String.ofList line.name, line.value.node)

namespace Node

variable {shorthands : Shorthands}

/-- The tokens of a line are read as its entry. -/
private theorem readBlockPairs_line (line : FieldLine) (calls : Nat) (tokens : List Token)
    (names : List (List Char × Nat)) :
    (readBlockPairs shorthands (calls + 2)).run ⟨line.tokens ++ tokens, names⟩ =
      (readBlockPairs shorthands (calls + 1)).run ⟨tokens, names⟩ >>=
        fun (entries, reading) => .ok (line.entry :: entries, reading) := rfl

/-- The lines of a record are read as one entry each, up to the end of the mapping. -/
theorem readBlockPairs_lines (lines : List FieldLine) {calls : Nat} (hcalls : lines.length < calls)
    (rest : List Token) (names : List (List Char × Nat)) :
    (readBlockPairs shorthands calls).run
        ⟨lines.flatMap FieldLine.tokens ++ .blockEnd :: rest, names⟩ =
      .ok (lines.map FieldLine.entry, ⟨rest, names⟩) := by
  induction lines generalizing calls with
  | nil =>
    obtain ⟨calls, rfl⟩ := Nat.exists_eq_add_one_of_ne_zero (Nat.ne_of_gt hcalls)
    rfl
  | cons line lines ih =>
    rw [List.length_cons] at hcalls
    obtain ⟨left, rfl⟩ : ∃ left, calls = left + 2 := ⟨calls - 2, by omega⟩
    rw [List.flatMap_cons, List.append_assoc, readBlockPairs_line, ih (by omega)]
    rfl

/-- The tokens of a record are read as a mapping. -/
theorem ofTokens?_lines (lines : List FieldLine) :
    ofTokens? (.blockMappingStart :: lines.flatMap FieldLine.tokens ++ [.blockEnd, .streamEnd]) =
      .ok (some (.mapping .none (lines.map FieldLine.entry))) := by
  have hnode : ∀ calls, lines.length < calls →
      (readNode standardShorthands true false (calls + 1)).run
          ⟨.blockMappingStart :: lines.flatMap FieldLine.tokens ++ [.blockEnd, .streamEnd], []⟩ =
        .ok (.mapping .none (lines.map FieldLine.entry), ⟨[.streamEnd], []⟩) := by
    intro calls hcalls
    have hstep : (readNode standardShorthands true false (calls + 1)).run
        ⟨.blockMappingStart :: lines.flatMap FieldLine.tokens ++ [.blockEnd, .streamEnd], []⟩ =
          (readBlockPairs standardShorthands calls).run
            ⟨lines.flatMap FieldLine.tokens ++ [.blockEnd, .streamEnd], []⟩ >>=
          fun (entries, reading) => .ok (.mapping .none entries, reading) := rfl
    rw [hstep, readBlockPairs_lines lines hcalls]
    rfl
  have hlength : (lines.flatMap FieldLine.tokens).length = 4 * lines.length := by
    clear hnode
    induction lines with
    | nil => rfl
    | cons line lines ih =>
      rw [List.flatMap_cons, List.length_append, ih, List.length_cons]
      exact Nat.add_comm 4 _
  have honly : readOnly standardShorthands
      (.blockMappingStart :: lines.flatMap FieldLine.tokens ++ [.blockEnd, .streamEnd]) =
        .ok (.mapping .none (lines.map FieldLine.entry)) := by
    unfold readOnly
    rw [hnode]
    · rfl
    · simp only [List.length_cons, List.length_append]
      omega
  have hfirst : ofTokens?
      (.blockMappingStart :: lines.flatMap FieldLine.tokens ++ [.blockEnd, .streamEnd]) =
        readOnly standardShorthands
          (.blockMappingStart :: lines.flatMap FieldLine.tokens ++ [.blockEnd, .streamEnd]) >>=
            fun node => .ok (some node) := rfl
  rw [hfirst, honly]
  rfl

end Node

/-- A record that is written line by line has the fields of its lines, in their order. -/
theorem fields_recordText {ending : List Char} (hending : ending = [] ∨ ending = ['\n'])
    {lines : List FieldLine} (hlines : ∀ line ∈ lines, line.Fits) (hne : lines ≠ []) :
    (document (String.ofList (recordText ending lines)) >>= Node.fields) =
      .ok (lines.map FieldLine.field) := by
  have hdocument : document (String.ofList (recordText ending lines)) =
      .ok (some (.ofRoot (.mapping .none (lines.map FieldLine.entry)))) := by
    rw [document, String.toList_ofList, tokens_recordText hending hlines hne, ok_bind,
      Node.ofTokens?_lines]
    rfl
  rw [hdocument, ok_bind]
  -- No entry is an alias, so each is its own key and value
  unfold Node.fields
  exact List.mapM_map.trans (mapM_eq_ok_map fun line _ => rfl)

end Stencil.Yaml
