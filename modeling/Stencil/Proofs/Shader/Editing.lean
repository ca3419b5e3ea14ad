import Mathlib.Data.List.Infix
import Stencil.Proofs.Shader.Cursor
import Stencil.Proofs.Text.Scan

/-!
# Runs of edits

A template is edited by insertions, declarations and substitutions in any order.  An edit answers
with an error or with nothing, and an edit that answers with an error changes nothing; `run` makes
edits one after the other, and is abandoned when one of them is.

Two descriptions of a run are given.  As long as no match that is replaced straddles the cursor, a
template is a pair of texts, `Halves`, of which the first grows at its end and both are replaced
separately.  In general the cursor stands behind what the text before it became.

## Key results

- `exists_perform_of_addition`: an insertion or a declaration extends the text before the cursor
- `substitute_eq_ok`: a substitution leaves the cursor behind what stood before it, replaced
- `perform_halves` / `run_halves`: one edit, and a run of edits, on the two halves
- `halves_of_run`: runs without straddling matches are runs of a two-buffer editor
-/

namespace Stencil.Template

open Text

/-! ## Edits -/

/-- A change that is asked of a template. -/
inductive Edit where
  | insert (addition : String)
  | declare (name : String) (value : Float32)
  | substitute (token new : String)

/-- The text that an edit adds, unless it replaces. -/
def Edit.addition? (dialect : Dialect) : Edit → Option (List Char)
  | .insert addition => some addition.toList
  | .declare name value => some (declarationLine dialect name value)
  | .substitute _ _ => none

/-- Makes an edit, and says what it answers.  What is refused leaves the template as it is. -/
def perform (t : Template) : Edit → Except Fault (Template × Option Shader.Error)
  | .insert addition => (t.insert addition).map (·, none)
  | .declare name value => (t.declare name value).map (·, none)
  | .substitute token new =>
    match t.substitute token new with
    | .ok t' => .ok (t', none)
    | .error (.refused e) => .ok (t, some e)
    | .error (.fault reason) => .error reason

/-- Makes edits one after the other, and collects their answers. -/
def run (t : Template) : List Edit → Except Fault (Template × List (Option Shader.Error))
  | [] => .ok (t, [])
  | e :: es =>
    match t.perform e with
    | .ok (t', answer) => (t'.run es).map fun (last, answers) => (last, answer :: answers)
    | .error reason => .error reason

/-- The condition holds of every edit of a run and the template that the edit finds. -/
def Along (P : Template → Edit → Prop) (t : Template) (edits : List Edit) : Prop :=
  ∀ done e rest, edits = done ++ e :: rest → ∀ t' answers, t.run done = .ok (t', answers) → P t' e

/-- A run goes on where its first edit has left the template. -/
theorem run_cons {t t' : Template} {e : Edit} {answer : Option Shader.Error} (es : List Edit)
    (h : t.perform e = .ok (t', answer)) :
    t.run (e :: es) = (t'.run es).map fun (last, answers) => (last, answer :: answers) := by
  rw [run, h]

/-- A run that is not abandoned makes its first edit, and then the others. -/
theorem exists_run_of_cons {t last : Template} {e : Edit} {es : List Edit}
    {answers : List (Option Shader.Error)} (h : t.run (e :: es) = .ok (last, answers)) :
    ∃ t' answer others, t.perform e = .ok (t', answer) ∧ t'.run es = .ok (last, others) ∧
      answers = answer :: others := by
  cases hperform : t.perform e with
  | error reason => simp [run, hperform] at h
  | ok found =>
    obtain ⟨t', answer⟩ := found
    rw [run_cons es hperform] at h
    cases hrest : t'.run es with
    | error reason => simp [hrest, Except.map] at h
    | ok found =>
      obtain ⟨last', others⟩ := found
      simp only [hrest, Except.map, Except.ok.injEq, Prod.mk.injEq] at h
      obtain ⟨rfl, rfl⟩ := h
      exact ⟨t', answer, others, rfl, hrest, rfl⟩

/-- Nothing is asked of a run without edits. -/
theorem along_nil (P : Template → Edit → Prop) (t : Template) : Along P t [] := by
  intro done e rest hnil
  simp at hnil

/-- A condition holds along a run when it holds of the first edit and along the rest of the run. -/
theorem along_cons_iff {P : Template → Edit → Prop} {t t' : Template} {e : Edit}
    {answer : Option Shader.Error} {es : List Edit} (h : t.perform e = .ok (t', answer)) :
    Along P t (e :: es) ↔ P t e ∧ Along P t' es := by
  constructor
  · intro halong
    refine ⟨halong [] e es rfl t [] rfl, fun done e' rest hes last answers hrun => ?_⟩
    refine halong (e :: done) e' rest (by rw [hes, List.cons_append]) last (answer :: answers) ?_
    rw [run_cons done h, hrun]
    rfl
  · rintro ⟨hfirst, hrest⟩ done e' rest hes last answers hrun
    cases done with
    | nil =>
      obtain ⟨rfl, -⟩ := List.cons.inj hes
      obtain ⟨rfl, -⟩ := Prod.mk.inj (Except.ok.inj hrun)
      exact hfirst
    | cons first done =>
      obtain ⟨rfl, hsame⟩ := List.cons.inj hes
      obtain ⟨next, _, others, hperform, hrun', -⟩ := exists_run_of_cons hrun
      obtain ⟨rfl, -⟩ := Prod.mk.inj (Except.ok.inj (h.symm.trans hperform))
      exact hrest done e' rest hsame last others hrun'

/-! ## Single edits -/

/-- An addition succeeds and puts its text at the end of the front part. -/
theorem exists_perform_of_addition {t : Template} {before after : List Char}
    (h : t.CutAt before after) {e : Edit} {text : List Char}
    (haddition : e.addition? t.dialect = some text) :
    ∃ t', t.perform e = .ok (t', none) ∧ t'.dialect = t.dialect ∧
      t'.CutAt (before ++ text) after := by
  cases e with
  | insert addition =>
    obtain rfl := Option.some.inj haddition
    refine ⟨t.extended before after addition, ?_, rfl, cutAt_extended h addition⟩
    rw [perform, insert_eq_ok h]
    rfl
  | declare name value =>
    obtain rfl := Option.some.inj haddition
    obtain ⟨t', hdeclare, hdialect, hcut⟩ := declare_eq_ok h name value
    refine ⟨t', ?_, hdialect, hcut⟩
    rw [perform, hdeclare]
    rfl
  | substitute token new => exact absurd haddition (by simp [Edit.addition?])

/-- A substitution that is not refused replaces every match in the text, and leaves the cursor
    behind what the text before it became. -/
theorem substitute_eq_ok {t : Template} {before after : List Char} (h : t.CutAt before after)
    {token : String} (hne : token.toList ≠ []) (hoccurs : token.toList <:+: before ++ after)
    (new : String) :
    t.substitute token new = .ok { t with
      text := String.ofList (replace token.toList new.toList (before ++ after))
      cursor := byteLength (replace token.toList new.toList before) } := by
  have hcursor : movedCursor t.cursor token.toList new.toList before =
      byteLength (replace token.toList new.toList before) := by
    rw [h.cursor_eq]
    exact byteLength_replace hne new.toList before
  have haccepted : ¬ (token.toList = [] ∨ !occurs token.toList (before ++ after)) := by
    rw [← occurs_iff] at hoccurs
    simp [hne, hoccurs]
  rw [substitute_eq h, if_neg haccepted, hcursor]

/-- A substitution of a token that is empty or does not occur is refused. -/
theorem substitute_eq_refused {t : Template} {before after : List Char} (h : t.CutAt before after)
    {token : String} (hnone : token.toList = [] ∨ ¬ token.toList <:+: before ++ after)
    (new : String) : t.substitute token new = .error (.refused (.missingPlaceholder token)) := by
  have hrefused : token.toList = [] ∨ !occurs token.toList (before ++ after) := by
    rw [← occurs_iff] at hnone
    simpa using hnone
  rw [substitute_eq h, if_pos hrefused]

/-! ## Two halves -/

/-- The text before the place of insertion and the text behind it. -/
structure Halves where
  before : List Char
  after : List Char

namespace Halves

/-- Makes an edit.  Additions go to the end of the first half, and matches are replaced in each of
    the halves. -/
def perform (dialect : Dialect) (h : Halves) : Edit → Halves × Option Shader.Error
  | .insert addition => (⟨h.before ++ addition.toList, h.after⟩, none)
  | .declare name value => (⟨h.before ++ declarationLine dialect name value, h.after⟩, none)
  | .substitute token new =>
    if token.toList ≠ [] ∧ token.toList <:+: h.before ++ h.after then
      (⟨replace token.toList new.toList h.before, replace token.toList new.toList h.after⟩, none)
    else (h, some (.missingPlaceholder token))

/-- Makes edits one after the other, and collects their answers. -/
def run (dialect : Dialect) (h : Halves) : List Edit → Halves × List (Option Shader.Error)
  | [] => (h, [])
  | e :: es =>
    let next := h.perform dialect e
    let (last, answers) := run dialect next.1 es
    (last, next.2 :: answers)

end Halves

/-- The template shows the halves: they are its text, and its cursor stands between them. -/
structure Shows (t : Template) (dialect : Dialect) (h : Halves) : Prop where
  dialect_eq : t.dialect = dialect
  cutAt : t.CutAt h.before h.after

/-- An edit that replaces a match which straddles the cursor. -/
def Edit.Straddles (t : Template) : Edit → Prop
  | .insert _ => False
  | .declare _ _ => False
  | .substitute token _ => ∃ front back, Scanned token.toList t.text.toList front back ∧
      byteLength front < t.cursor ∧ t.cursor < byteLength (front ++ token.toList)

/-- A substitution straddles the cursor when one of its matches straddles the seam. -/
theorem straddles_substitute_iff {t : Template} {before after : List Char}
    (h : t.CutAt before after) (token new : String) :
    (Edit.substitute token new).Straddles t ↔ MatchStraddles token.toList before after := by
  rw [matchStraddles_iff, ← h.text_eq, ← h.cursor_eq]
  rfl

/-- One edit is made on the template as it is made on the halves. -/
theorem perform_halves {t : Template} {dialect : Dialect} {h : Halves} (hshows : t.Shows dialect h)
    {e : Edit} (hstraddles : ¬ e.Straddles t) :
    ∃ t', t.perform e = .ok (t', (h.perform dialect e).2) ∧
      t'.Shows dialect (h.perform dialect e).1 := by
  obtain ⟨hdialect, hcut⟩ := hshows
  cases e with
  | insert addition =>
    obtain ⟨t', hperform, hsame, hcut'⟩ := exists_perform_of_addition (e := .insert addition) hcut rfl
    exact ⟨t', hperform, hsame.trans hdialect, hcut'⟩
  | declare name value =>
    obtain ⟨t', hperform, hsame, hcut'⟩ := exists_perform_of_addition (e := .declare name value) hcut rfl
    rw [hdialect] at hcut'
    exact ⟨t', hperform, hsame.trans hdialect, hcut'⟩
  | substitute token new =>
    by_cases haccepted : token.toList ≠ [] ∧ token.toList <:+: h.before ++ h.after
    · -- No match straddles the seam, so the halves are replaced separately
      rw [straddles_substitute_iff hcut] at hstraddles
      have hzero := overhang_eq_zero_iff.2 hstraddles
      have hperform := substitute_eq_ok hcut haccepted.1 haccepted.2 new
      rw [replace_append new.toList h.after hzero] at hperform
      rw [perform, hperform, Halves.perform, if_pos haccepted]
      exact ⟨_, rfl, hdialect, String.toList_ofList, rfl⟩
    · have hrefused : token.toList = [] ∨ ¬ token.toList <:+: h.before ++ h.after := by
        by_cases hne : token.toList = []
        · exact Or.inl hne
        · exact Or.inr fun hinfix => haccepted ⟨hne, hinfix⟩
      rw [perform, substitute_eq_refused hcut hrefused, Halves.perform, if_neg haccepted]
      exact ⟨t, rfl, hdialect, hcut⟩

/-- A run in which nothing straddles the cursor is made on the template as on the halves. -/
theorem run_halves {t : Template} {dialect : Dialect} {h : Halves} (hshows : t.Shows dialect h)
    {edits : List Edit} (hstraddles : Along (fun t e => ¬ e.Straddles t) t edits) :
    ∃ t', t.run edits = .ok (t', (h.run dialect edits).2) ∧
      t'.Shows dialect (h.run dialect edits).1 := by
  induction edits generalizing t h with
  | nil => exact ⟨t, rfl, hshows⟩
  | cons e es ih =>
    have hfirst : ¬ e.Straddles t := hstraddles [] e es rfl t [] rfl
    obtain ⟨next, hperform, hnext⟩ := perform_halves hshows hfirst
    have hrest := ((along_cons_iff hperform).1 hstraddles).2
    obtain ⟨last, hrun, hlast⟩ := ih hnext hrest
    refine ⟨last, ?_, hlast⟩
    rw [run_cons es hperform, hrun]
    rfl

/-! ## Runs of a fresh template -/

/-- A fresh template shows its text, cut where its preamble ends. -/
theorem exists_halves (text : String) (dialect : Dialect) :
    ∃ start : Halves,
      splitAtByte? (preambleEnd text.toList) text.toList = some (start.before, start.after) ∧
        (ofText text dialect).Shows dialect start := by
  obtain ⟨after, hsplit⟩ := splitAtByte?_preambleEnd text.toList
  exact ⟨⟨_, after⟩, hsplit, rfl, cutAt_ofText dialect hsplit⟩

/-- A run is a run of its beginning, continued. -/
theorem Halves.run_append (dialect : Dialect) (h : Halves) (done rest : List Edit) :
    (h.run dialect (done ++ rest)).1 = ((h.run dialect done).1.run dialect rest).1 := by
  induction done generalizing h with
  | nil => rfl
  | cons e done ih => exact ih (h.perform dialect e).1

/-- Additions are put at the end of the first half, in the order in which they are made. -/
theorem Halves.run_additions {dialect : Dialect} (h : Halves) {edits : List Edit}
    {texts : List (List Char)} (hadditions : edits.map (·.addition? dialect) = texts.map some) :
    (h.run dialect edits).1 = ⟨h.before ++ texts.flatten, h.after⟩ := by
  induction edits generalizing h texts with
  | nil =>
    obtain rfl : texts = [] := List.map_eq_nil_iff.1 hadditions.symm
    simp [run]
  | cons e edits ih =>
    cases texts with
    | nil => simp at hadditions
    | cons text texts =>
      obtain ⟨hfirst, hrest⟩ := List.cons.inj hadditions
      have hperform : (h.perform dialect e).1 = ⟨h.before ++ text, h.after⟩ := by
        cases e with
        | insert addition => rw [← Option.some.inj hfirst]; rfl
        | declare name value => rw [← Option.some.inj hfirst]; rfl
        | substitute token new => exact absurd hfirst (by simp [Edit.addition?])
      show ((h.perform dialect e).1.run dialect edits).1 = _
      rw [hperform, ih _ hrest, List.flatten_cons, List.append_assoc]

/-- A run in which no replaced match straddles the cursor is a run of a two-buffer editor, and is
    never abandoned.  At every moment the text is what stands in both buffers and the cursor is the
    byte length of the first, so additions stand in order between what was before and behind. -/
theorem halves_of_run (text : String) (dialect : Dialect) :
    ∃ start : Halves,
      splitAtByte? (preambleEnd text.toList) text.toList = some (start.before, start.after) ∧
      ∀ edits, Along (fun t e => ¬ e.Straddles t) (ofText text dialect) edits →
        (∀ done, done <+: edits → ∃ t,
          (ofText text dialect).run done = .ok (t, (start.run dialect done).2) ∧
          t.dialect = dialect ∧
          t.text.toList =
            (start.run dialect done).1.before ++ (start.run dialect done).1.after ∧
          t.cursor = byteLength (start.run dialect done).1.before) ∧
        ∀ done additions (texts : List (List Char)), done ++ additions <+: edits →
          additions.map (·.addition? dialect) = texts.map some →
          ∃ t, (ofText text dialect).run (done ++ additions) =
              .ok (t, (start.run dialect (done ++ additions)).2) ∧
            t.text.toList = (start.run dialect done).1.before ++ texts.flatten ++
              (start.run dialect done).1.after := by
  obtain ⟨start, hsplit, hshows⟩ := exists_halves text dialect
  refine ⟨start, hsplit, fun edits hstraddles => ?_⟩
  -- What holds along a run holds along its beginnings
  have hdone : ∀ done, done <+: edits → ∃ t,
      (ofText text dialect).run done = .ok (t, (start.run dialect done).2) ∧
        t.Shows dialect (start.run dialect done).1 := by
    intro done hprefix
    obtain ⟨rest, rfl⟩ := hprefix
    refine run_halves hshows fun before e after hbefore => ?_
    exact hstraddles before e (after ++ rest) (by rw [hbefore]; simp)
  constructor
  · intro done hprefix
    obtain ⟨t, hrun, hdialect, hcut⟩ := hdone done hprefix
    exact ⟨t, hrun, hdialect, hcut.text_eq, hcut.cursor_eq⟩
  · intro done additions texts hprefix hadditions
    obtain ⟨t, hrun, -, hcut⟩ := hdone (done ++ additions) hprefix
    refine ⟨t, hrun, ?_⟩
    rw [hcut.text_eq, Halves.run_append, Halves.run_additions _ hadditions]

/-- A token that overlaps itself stands on both sides of the cursor, and both are replaced. -/
theorem halves_of_run_both_sides :
    Along (fun t e => ¬ e.Straddles t) (ofText "#v\naab" .glsl)
        [.insert "éaa", .substitute "aa" "ü", .insert "z"] ∧
      ∃ t, (ofText "#v\naab" .glsl).run [.insert "éaa", .substitute "aa" "ü", .insert "z"] =
          .ok (t, [none, none, none]) ∧ t.text.toList = "#v\néüzüb".toList := by
  have hinsert : (ofText "#v\naab" .glsl).perform (.insert "éaa") =
      .ok (⟨"#v\néaaaab", .glsl, 7⟩, none) := by rfl
  have hsubstitute : Template.perform ⟨"#v\néaaaab", .glsl, 7⟩ (.substitute "aa" "ü") =
      .ok (⟨"#v\néüüb", .glsl, 7⟩, none) := by rfl
  have hbehind : Template.perform ⟨"#v\néüüb", .glsl, 7⟩ (.insert "z") =
      .ok (⟨"#v\néüzüb", .glsl, 8⟩, none) := by rfl
  have hcut : Template.CutAt ⟨"#v\néaaaab", .glsl, 7⟩ "#v\néaa".toList "aab".toList :=
    ⟨by decide, by decide⟩
  have hclear : ¬ (Edit.substitute "aa" "ü").Straddles ⟨"#v\néaaaab", .glsl, 7⟩ := by
    rw [straddles_substitute_iff hcut]
    decide
  have halong : Along (fun t e => ¬ e.Straddles t) (ofText "#v\naab" .glsl)
      [.insert "éaa", .substitute "aa" "ü", .insert "z"] := by
    rw [along_cons_iff hinsert, along_cons_iff hsubstitute, along_cons_iff hbehind]
    exact ⟨id, hclear, id, along_nil _ _⟩
  obtain ⟨start, hsplit, hruns⟩ := halves_of_run "#v\naab" .glsl
  obtain ⟨t, hrun, -, htext, -⟩ := (hruns _ halong).1 _ (List.prefix_refl _)
  have hstart : splitAtByte? (preambleEnd "#v\naab".toList) "#v\naab".toList =
      some ("#v\n".toList, "aab".toList) := by decide
  obtain ⟨before, after⟩ := start
  obtain ⟨rfl, rfl⟩ := Prod.mk.inj (Option.some.inj (hsplit.symm.trans hstart))
  refine ⟨halong, t, hrun, ?_⟩
  rw [htext]
  decide

end Stencil.Template
