import Stencil.Proofs.Outcome
import Stencil.Yaml.Layout

/-!
# Scanning a record

A record in block style has a line for each field: a name, a colon, and a value, which is a word or
a text in double quotes.  A line takes three rounds of the scanner: the name, which is noted as a
possible key; the colon, which makes it one and opens the mapping on the first line; the value,
behind which the next line starts.  Each round leads from one phase to the next, and the phases say
all that the scanner remembers.

## Key results

- `readPlain_word` / `readDoubleQuoted_inline`: a word and a quoted text are read as they are
- `Layout.LineStart.name` / `Layout.NameRead.colon` / `Layout.ColonRead.value`: the three rounds
  of a line
- `Layout.LineStart.lines`: the rounds of all lines
- `tokens_recordText`: the tokens of a record
-/

namespace Stencil.Yaml

/-! ## Words and inline texts -/

/-- A word of letters. -/
structure IsWord (cs : List Char) : Prop where
  ne_nil : cs ≠ []
  letters : ∀ c ∈ cs, c.isAlpha

/-- Whether a character stands for itself between double quotes: a shown ASCII character or a
    space, but neither the quote nor the backslash. -/
def isInline (c : Char) : Bool := 0x20 ≤ c.toNat && c.toNat ≤ 0x7e && c ≠ '\x22' && c ≠ '\x5c'

/-- A letter is no other character. -/
theorem ne_of_isAlpha {c d : Char} (hc : c.isAlpha) (hd : d.isAlpha = false) : c ≠ d := by
  rintro rfl
  rw [hd] at hc
  exact Bool.false_ne_true hc

/-- A letter is a shown ASCII character. -/
theorem toNat_of_isAlpha {c : Char} (hc : c.isAlpha) : 0x20 ≤ c.toNat ∧ c.toNat ≤ 0x7e := by
  have hwithin : ∀ {low high : UInt32}, 0x20 ≤ low.toNat → high.toNat ≤ 0x7e → low ≤ c.val →
      c.val ≤ high → 0x20 ≤ c.toNat ∧ c.toNat ≤ 0x7e := fun hlow hhigh hl hh =>
    ⟨Nat.le_trans hlow (UInt32.le_iff_toNat_le.1 hl), Nat.le_trans (UInt32.le_iff_toNat_le.1 hh) hhigh⟩
  have hcase : c.isUpper ∨ c.isLower := Bool.or_eq_true_iff.1 hc
  rcases hcase with hupper | hlower
  · obtain ⟨hl, hh⟩ : 'A'.val ≤ c.val ∧ c.val ≤ 'Z'.val := of_decide_eq_true hupper
    exact hwithin (by decide) (by decide) hl hh
  · obtain ⟨hl, hh⟩ : decide ('a'.val ≤ c.val) ∧ decide (c.val ≤ 'z'.val) :=
      Bool.and_eq_true_iff.1 hlower
    exact hwithin (by decide) (by decide) (of_decide_eq_true hl) (of_decide_eq_true hh)

theorem isBreak_of_isAlpha {c : Char} (hc : c.isAlpha) : isBreak c = false := by
  unfold isBreak
  rw [beq_false_of_ne (ne_of_isAlpha hc (by decide)), beq_false_of_ne (ne_of_isAlpha hc (by decide)),
    beq_false_of_ne (ne_of_isAlpha hc (by decide))]
  rfl

theorem isSpace_of_isAlpha {c : Char} (hc : c.isAlpha) : isSpace c = false := by
  unfold isSpace
  rw [beq_false_of_ne (ne_of_isAlpha hc (by decide)), beq_false_of_ne (ne_of_isAlpha hc (by decide))]
  rfl

/-- A letter starts no mark of a document. -/
theorem atDocumentMark_of_isAlpha {c : Char} (hc : c.isAlpha) (rest : List Char) :
    atDocumentMark (c :: rest) = false := by
  match rest with
  | [] => rfl
  | [_] => rfl
  | b :: d :: rest =>
    simp [atDocumentMark, ne_of_isAlpha hc (by decide : '-'.isAlpha = false),
      ne_of_isAlpha hc (by decide : '.'.isAlpha = false)]

/-- An inline character is a shown ASCII character or a space. -/
theorem toNat_of_isInline {c : Char} (hc : isInline c) : 0x20 ≤ c.toNat ∧ c.toNat ≤ 0x7e := by
  simp only [isInline, Bool.and_eq_true, decide_eq_true_eq] at hc
  exact ⟨hc.1.1.1, hc.1.1.2⟩

theorem isBreak_of_isInline {c : Char} (hc : isInline c) : isBreak c = false := by
  obtain ⟨hlow, hhigh⟩ := toNat_of_isInline hc
  have hne : ∀ d : Char, d.toNat < 0x20 ∨ 0x7e < d.toNat → (c == d) = false := by
    intro d hd
    refine beq_false_of_ne ?_
    rintro rfl
    omega
  unfold isBreak
  rw [hne _ (by decide), hne _ (by decide), hne _ (by decide)]
  rfl

/-! ## Scalars -/

/-- A letter of a plain scalar is read as it is. -/
private theorem readPlain_letter {context : PlainContext} (hflow : context.inFlow = false)
    (inGap : Bool) (reversed : List Char) (column : Nat) {c : Char} (hc : c.isAlpha)
    (rest : List Char) :
    readPlain context inGap Gap.none reversed column (c :: rest) =
      readPlain context false Gap.none (c :: reversed) (column + 1) rest := by
  have hstops : stopsAfterGap context Gap.none column c rest = false := by
    simp [stopsAfterGap, Gap.none, Gap.isBroken, atDocumentMark_of_isAlpha hc,
      ne_of_isAlpha hc (by decide : '#'.isAlpha = false)]
  have hcolon : isAmbiguousColon context c rest = false := by simp [isAmbiguousColon, hflow]
  have hends : endsPlain context c rest = false := by
    simp [endsPlain, hflow, ne_of_isAlpha hc (by decide : ':'.isAlpha = false)]
  rw [readPlain]
  simp only [isBreak_of_isAlpha hc, isSpace_of_isAlpha hc, hstops, hcolon, hends, Bool.and_false,
    Bool.false_eq_true, if_false]
  rfl

/-- A word is read as it is. -/
theorem readPlain_word {context : PlainContext} (hflow : context.inFlow = false) {word : List Char}
    (hword : IsWord word) (column : Nat) (rest : List Char) :
    readPlain context true Gap.none [] column (word ++ rest) =
      readPlain context false Gap.none word.reverse (column + word.length) rest := by
  have hletters : ∀ (letters reversed : List Char) (column : Nat), (∀ c ∈ letters, c.isAlpha) →
      readPlain context false Gap.none reversed column (letters ++ rest) =
        readPlain context false Gap.none (letters.reverse ++ reversed) (column + letters.length)
          rest := by
    intro letters
    induction letters with
    | nil => exact fun _ _ _ => rfl
    | cons c letters ih =>
      intro reversed column hall
      obtain ⟨hc, hall⟩ := List.forall_mem_cons.1 hall
      rw [List.cons_append, readPlain_letter hflow _ _ _ hc, ih _ _ hall, List.reverse_cons,
        List.append_assoc, List.length_cons, Nat.add_assoc, Nat.add_comm 1]
      rfl
  -- The first letter stands behind a gap, the others do not
  match word, hword with
  | c :: letters, ⟨_, hall⟩ =>
    obtain ⟨hc, hall⟩ := List.forall_mem_cons.1 hall
    rw [List.cons_append, readPlain_letter hflow _ _ _ hc, hletters _ _ _ hall, List.reverse_cons,
      List.length_cons, Nat.add_assoc, Nat.add_comm 1]

/-- A word in front of a colon and a space ends there. -/
theorem readPlain_name {context : PlainContext} (hflow : context.inFlow = false) {name : List Char}
    (hname : IsWord name) (column : Nat) (rest : List Char) :
    readPlain context true Gap.none [] column (name ++ ':' :: ' ' :: rest) =
      .ok ⟨name, false, ':' :: ' ' :: rest⟩ := by
  rw [readPlain_word hflow hname, readPlain]
  simp [isBreak, isSpace, isAmbiguousColon, endsPlain, endsWord, hflow, Gap.none, Gap.isBroken]

/-- What may end the line of a field: a line feed, or the end of the text. -/
inductive LineEnd : List Char → List Char → Prop where
  | feed {rest : List Char} (h : ∀ c ∈ rest.head?, c.isAlpha) : LineEnd ['\n'] rest
  | last : LineEnd [] []

/-- A word at the end of a line in a block ends with the line, and takes the line feed along. -/
theorem readPlain_value {context : PlainContext} (hflow : context.inFlow = false)
    (hcolumn : 0 < context.minColumn) {word : List Char} (hword : IsWord word) (column : Nat)
    {ending rest : List Char} (hend : LineEnd ending rest) :
    readPlain context true Gap.none [] column (word ++ (ending ++ rest)) =
      .ok ⟨word, !ending.isEmpty, rest⟩ := by
  rw [readPlain_word hflow hword]
  cases hend with
  | last =>
    rw [List.append_nil, readPlain, List.reverse_reverse]
    rfl
  | @feed rest hhead =>
    have hfeed : isBreak '\n' = true := by decide
    rw [List.singleton_append, readPlain, if_pos hfeed]
    match rest, hhead with
    | [], _ =>
      rw [readPlain, List.reverse_reverse]
      rfl
    | c :: rest, hhead =>
      have hc : c.isAlpha := hhead c rfl
      have hstops : stopsAfterGap context (Gap.none.lineBreak '\n') 0 c rest = true := by
        simp [stopsAfterGap, Gap.none, Gap.lineBreak, Gap.isBroken, hflow, hcolumn]
      rw [readPlain]
      simp only [isBreak_of_isAlpha hc, isSpace_of_isAlpha hc, hstops, List.reverse_reverse]
      rfl

/-- A text without quotes, escapes and line breaks is read up to its closing quote as it is. -/
theorem readDoubleQuoted_inline {text : List Char} (htext : ∀ c ∈ text, isInline c)
    (rest : List Char) :
    readDoubleQuoted .text Gap.none [] false (text ++ '\x22' :: rest) = .ok ⟨text, rest⟩ := by
  -- What was read so far is the reversed text with the blanks behind it
  have hread : ∀ (text blanks reversed : List Char), (∀ c ∈ text, isInline c) →
      readDoubleQuoted .text (.blanks blanks) reversed false (text ++ '\x22' :: rest) =
        .ok ⟨reversed.reverse ++ blanks.reverse ++ text, rest⟩ := by
    intro text
    induction text with
    | nil =>
      intro blanks reversed _
      rw [List.nil_append, readDoubleQuoted]
      simp [isBreak, isSpace, Gap.folded]
    | cons c text ih =>
      intro blanks reversed hall
      obtain ⟨hc, hall⟩ := List.forall_mem_cons.1 hall
      have hquote : c ≠ '\x22' ∧ c ≠ '\x5c' := by
        simp [isInline] at hc
        exact ⟨hc.1.2, hc.2⟩
      rw [List.cons_append, readDoubleQuoted]
      simp only [isBreak_of_isInline hc, Bool.false_eq_true, if_false, Bool.false_and, hquote.1,
        hquote.2]
      split
      · rw [Gap.blank, ih _ _ hall]
        simp
      · rw [Gap.none, ih _ _ hall]
        simp [extend, Gap.folded]
  exact hread text [] [] htext

/-! ## The lines of a record -/

/-- How the value of a field is written: as a word, or as a text in double quotes. -/
inductive FieldValue where
  | word (text : List Char)
  | quoted (text : List Char)

namespace FieldValue

/-- The text of a value. -/
def text : FieldValue → List Char
  | .word text => text
  | .quoted text => text

/-- The style of the scalar that a value is. -/
def style : FieldValue → Style
  | .word _ => .plain
  | .quoted _ => .doubleQuoted

/-- A value as it is written. -/
def chars : FieldValue → List Char
  | .word text => text
  | .quoted text => '\x22' :: (text ++ ['\x22'])

/-- A word of letters, or an inline text. -/
def Fits : FieldValue → Prop
  | .word text => IsWord text
  | .quoted text => ∀ c ∈ text, isInline c

/-- A value is written with shown ASCII characters and spaces. -/
theorem Fits.ascii {value : FieldValue} (h : value.Fits) :
    ∀ c ∈ value.chars, 0x20 ≤ c.toNat ∧ c.toNat ≤ 0x7e := by
  cases value with
  | word word => exact fun c hc => toNat_of_isAlpha (IsWord.letters h c hc)
  | quoted text =>
    intro c hc
    rw [chars, List.mem_cons, List.mem_append, List.mem_singleton] at hc
    rcases hc with rfl | hc | rfl
    · decide
    · exact toNat_of_isInline (h c hc)
    · decide

end FieldValue

/-- The line of a field. -/
structure FieldLine where
  name : List Char
  value : FieldValue

namespace FieldLine

/-- A line as it is written, without its end. -/
def chars (line : FieldLine) : List Char := line.name ++ ':' :: ' ' :: line.value.chars

/-- The tokens of a line. -/
def tokens (line : FieldLine) : List Token :=
  [.key, .scalar .plain line.name, .value, .scalar line.value.style line.value.text]

/-- A line whose name can be a key, and whose value stands on the line. -/
structure Fits (line : FieldLine) : Prop where
  name : IsWord line.name
  short : line.name.length ≤ 1024
  value : line.value.Fits

end FieldLine

/-- A record, as its lines.  The last one ends as given. -/
def recordText (ending : List Char) : List FieldLine → List Char
  | [] => []
  | line :: rest =>
    line.chars ++ ((if rest.isEmpty then ending else ['\n']) ++ recordText ending rest)

namespace Layout

/-! ## Phases of a line -/

variable {s : Layout} {opened : Bool} {before : List Token} {rest : List Char}

/-- The block collections around a line: the mapping of the record, once its first line was seen. -/
def InRecord (s : Layout) (opened : Bool) : Prop :=
  s.outerKeys = [] ∧ (s.indent, s.outerIndents) = if opened then (0, [-1]) else (-1, [])

/-- The scanner is at the start of a line, or at the end of the text. -/
structure LineStart (s : Layout) (opened : Bool) (before : List Token) (rest : List Char) : Prop where
  left : s.rest = rest
  ready : rest ≠ [] → s.keyAllowed = true ∧ s.position.column = 0
  inRecord : s.InRecord opened
  key : s.key? = none
  tokens : s.tokens = before

/-- The scanner has read a name, and is at the colon behind it. -/
structure NameRead (s : Layout) (opened : Bool) (before : List Token) (name rest : List Char) :
    Prop where
  left : s.rest = ':' :: ' ' :: rest
  inRecord : s.InRecord opened
  key : ∃ key, s.key? = some key ∧ key.token = before.length ∧ key.position.column = 0 ∧
    key.position.line = s.position.line ∧ s.position.index ≤ key.position.index + 1024
  tokens : s.tokens = before ++ [.scalar .plain name]

/-- The scanner has read the colon behind a name, and is somewhere in front of the value. -/
structure ColonRead (s : Layout) (before : List Token) (rest : List Char) : Prop where
  left : s.rest = rest
  inRecord : s.InRecord true
  keyAllowed : s.keyAllowed = false
  key : s.key? = none
  tokens : s.tokens = before

/-! ## One round -/

/-- Nothing is forgotten outside of flow collections, if the key of the level is kept. -/
theorem refreshKeys_eq (hflow : s.outerKeys = [])
    (hkey : refreshKey s.position s.key? = .ok s.key?) : s.refreshKeys = .ok s := by
  unfold refreshKeys
  rw [hkey, hflow]
  obtain ⟨⟩ := s
  cases hflow
  rfl

/-- No block collection is closed at a column that is not further out. -/
theorem closeBlocks_eq {column : Int} (hindent : s.indent ≤ column) : s.closeBlocks column = s := by
  have hclose : closeIndents column s.indent s.outerIndents = (s.indent, s.outerIndents, 0) := by
    cases s.outerIndents with
    | nil => rfl
    | cons outer outers => rw [closeIndents, if_neg (by omega)]
  unfold closeBlocks
  rw [hclose]
  split
  · rfl
  · simp

/-- In a record no line stands further out than the record. -/
theorem InRecord.indent_le (h : s.InRecord opened) : s.indent ≤ 0 := by
  obtain ⟨-, hindents⟩ := h
  have := congrArg Prod.fst hindents
  cases opened <;> simp at this <;> omega

theorem InRecord.inFlow (h : s.InRecord opened) : s.inFlow = false := by
  simp [Layout.inFlow, h.1]

/-- A round in a record reads the token behind the blanks in front. -/
theorem InRecord.run_succ (h : s.skip.InRecord opened)
    (hkey : refreshKey s.skip.position s.skip.key? = .ok s.skip.key?) {c : Char}
    (hrest : s.skip.rest = c :: rest) (n : Nat) :
    s.run (n + 1) = s.skip.fetch c rest >>= run n := by
  have hindent : s.skip.indent ≤ (s.skip.position.column : Int) := by
    have := h.indent_le
    omega
  rw [run, refreshKeys_eq h.1 hkey, ok_bind, closeBlocks_eq hindent]
  simp only [hrest]

/-- Moving on behind some characters goes through them. -/
theorem moveTo_eq {consumed : List Char} (h : s.rest = consumed ++ rest) :
    s.moveTo rest = { s with rest, position := consumed.foldl Position.after s.position } := by
  have htake : s.rest.take (s.rest.length - rest.length) = consumed := by
    rw [h, List.length_append, Nat.add_sub_cancel, List.take_left]
  rw [moveTo, htake]

/-- A letter takes one byte. -/
theorem utf8Size_of_isAlpha {c : Char} (hc : c.isAlpha) : c.utf8Size = 1 := by
  have hsmall : c.val ≤ 0x7f := by
    have := (toNat_of_isAlpha hc).2
    exact UInt32.le_iff_toNat_le.2 (Nat.le_trans this (by decide))
  exact if_pos hsmall

/-- Going through letters stays on the line. -/
theorem foldl_after_letters {letters : List Char} (h : ∀ c ∈ letters, c.isAlpha) (p : Position) :
    letters.foldl Position.after p =
      ⟨p.line, p.column + letters.length, p.index + letters.length⟩ := by
  induction letters generalizing p with
  | nil => rfl
  | cons c letters ih =>
    obtain ⟨hc, h⟩ := List.forall_mem_cons.1 h
    rw [List.foldl_cons, ih h, Position.after, isBreak_of_isAlpha hc, utf8Size_of_isAlpha hc,
      List.length_cons]
    simp only [Bool.false_eq_true, if_false, Position.mk.injEq, true_and]
    omega

/-- A letter starts a plain scalar. -/
theorem fetch_letter {c : Char} (hc : c.isAlpha) (rest : List Char) : s.fetch c rest = s.plain := by
  have hne : ∀ d : Char, d.isAlpha = false → (c = d) = False := fun d hd =>
    eq_false (ne_of_isAlpha hc hd)
  have hstarts : startsPlain s.inFlow c rest = true := by
    simp [startsPlain, isSpace_of_isAlpha hc, isBreak_of_isAlpha hc, hne '%' rfl, hne '[' rfl,
      hne '\x7b' rfl, hne ']' rfl, hne '\x7d' rfl, hne ',' rfl, hne '-' rfl, hne '?' rfl, hne ':' rfl,
      hne '*' rfl, hne '&' rfl, hne '!' rfl, hne '|' rfl, hne '>' rfl, hne '\x27' rfl, hne '\x22' rfl,
      hne '#' rfl, hne '@' rfl, hne '\x60' rfl]
  unfold fetch
  simp only [atDocumentMark_of_isAlpha hc, hstarts, hne '%' rfl, hne '[' rfl, hne '\x7b' rfl,
    hne ']' rfl, hne '\x7d' rfl, hne ',' rfl, hne '-' rfl, hne '?' rfl, hne ':' rfl, hne '*' rfl,
    hne '&' rfl, hne '!' rfl, hne '|' rfl, hne '>' rfl, hne '\x27' rfl, hne '\x22' rfl, false_and,
    and_false, Bool.false_eq_true, if_false, if_true]

/-- A plain scalar is read and gone through, once the key that it may be is noted. -/
theorem plain_eq_ok {t : Layout} (hkey : s.noteKey = .ok t) {text consumed : List Char}
    {brokeLine : Bool} (hleft : t.rest = consumed ++ rest)
    (hread : readPlain ⟨t.inFlow, t.indent + 1⟩ true Gap.none [] t.position.column
      (consumed ++ rest) = .ok ⟨text, brokeLine, rest⟩) :
    s.plain = .ok { t with
      rest
      position := consumed.foldl Position.after t.position
      keyAllowed := brokeLine
      tokens := t.tokens ++ [.scalar .plain text] } := by
  rw [← hleft] at hread
  rw [plain, hkey, ok_bind, hread, ok_bind, moveTo_eq hleft]
  rfl

/-- A name is read as a scalar, and noted as a possible key. -/
theorem LineStart.name {name : List Char}
    (h : s.skip.LineStart opened before (name ++ ':' :: ' ' :: rest)) (hname : IsWord name)
    (hshort : name.length ≤ 1024) (n : Nat) :
    ∃ t : Layout, s.run (n + 1) = t.run n ∧ t.NameRead opened before name rest := by
  obtain ⟨c, letters, rfl⟩ := List.exists_cons_of_ne_nil hname.ne_nil
  have hc : c.isAlpha := hname.letters c List.mem_cons_self
  have hrun := h.inRecord.run_succ (by rw [h.key]; rfl) h.left n
  rw [fetch_letter hc] at hrun
  rw [hrun]
  generalize s.skip = t at h
  obtain ⟨hallowed, hcolumn⟩ := h.ready (by simp)
  have hnote : t.noteKey = .ok { t with key? := some ⟨before.length, t.position,
      !t.inFlow && t.indent == (t.position.column : Int)⟩ } := by
    rw [noteKey, if_pos hallowed, dropKey, h.key, ← h.tokens]
    rfl
  have hread := @readPlain_name ⟨t.inFlow, t.indent + 1⟩ h.inRecord.inFlow _ hname
    t.position.column rest
  rw [plain_eq_ok hnote h.left hread, ok_bind, foldl_after_letters hname.letters]
  exact ⟨_, rfl, rfl, h.inRecord, ⟨_, rfl, rfl, hcolumn, rfl, Nat.add_le_add_left hshort _⟩,
    by rw [← h.tokens]⟩

/-- Nothing is skipped in front of a character that is neither blank nor the start of a comment. -/
theorem skip_eq_self {c : Char} (hleft : s.rest = c :: rest) (hbreak : isBreak c = false)
    (hblank : c ≠ ' ' ∧ c ≠ '\t' ∧ c ≠ byteOrderMark) (hcomment : c ≠ '#') : s.skip = s := by
  have hfrom : skipFrom s.inFlow s.keyAllowed false s.position s.rest =
      (s.keyAllowed, s.position, s.rest) := by
    rw [hleft, skipFrom]
    simp [hbreak, hblank, hcomment]
  rw [skip, hfrom]

/-- A token is put in front of the last ones. -/
private theorem insertIdx_length {α : Type} (l r : List α) (a : α) :
    (l ++ r).insertIdx l.length a = l ++ a :: r := by
  induction l with
  | nil => rfl
  | cons b l ih => rw [List.cons_append, List.length_cons, List.insertIdx_succ_cons, ih]; rfl

/-- At the margin a block is opened in front of the first line, and no other. -/
theorem InRecord.openBlock_eq (h : s.InRecord opened) {after : List Token}
    (htokens : s.tokens = before ++ after) (token : Token) :
    s.openBlock 0 before.length token = { s with
      indent := 0
      outerIndents := [-1]
      tokens := before ++ (if opened then [] else [token]) ++ after } := by
  have hflow := h.inFlow
  obtain ⟨-, hindents⟩ := h
  rw [openBlock, hflow, htokens, insertIdx_length]
  cases opened with
  | true =>
    obtain ⟨hindent, houter⟩ : s.indent = 0 ∧ s.outerIndents = [-1] := Prod.mk.inj hindents
    rw [hindent, if_neg (by decide)]
    obtain ⟨⟩ := s
    simp_all
  | false =>
    obtain ⟨hindent, houter⟩ : s.indent = -1 ∧ s.outerIndents = [] := Prod.mk.inj hindents
    rw [hindent, houter, if_pos (by decide)]
    simp

/-- The colon behind a name makes it a key, and opens the mapping if this is the first line. -/
theorem NameRead.colon {name : List Char} (h : s.NameRead opened before name rest) (n : Nat) :
    ∃ t : Layout, s.run (n + 1) = t.run n ∧ t.ColonRead
      (before ++ (if opened then [] else [.blockMappingStart]) ++
        [.key, .scalar .plain name, .value]) (' ' :: rest) := by
  have hskip : s.skip = s := skip_eq_self h.left (by decide) (by decide) (by decide)
  obtain ⟨key, hkey, hplace, hcolumn, hline, hindex⟩ := h.key
  have hrefresh : refreshKey s.position s.key? = .ok s.key? := by
    rw [hkey, refreshKey, if_neg (by omega)]
  have hrun : s.run (n + 1) = s.fetch ':' (' ' :: rest) >>= run n := by
    rw [← hskip] at h hrefresh
    rw [h.inRecord.run_succ hrefresh h.left, hskip]
  have hfetch : s.fetch ':' (' ' :: rest) = s.valueIndicator (' ' :: rest) := by
    have hmark : atDocumentMark (':' :: ' ' :: rest) = false := by
      cases rest <;> simp [atDocumentMark]
    unfold fetch
    simp [hmark, endsWord, isSpace]
  have htokens : s.tokens.insertIdx key.token .key =
      before ++ [.key, .scalar .plain name] := by
    rw [h.tokens, hplace, insertIdx_length]
  have hopen := @InRecord.openBlock_eq
    { s with tokens := s.tokens.insertIdx key.token .key, key? := none } opened before h.inRecord _
    htokens .blockMappingStart
  rw [hplace] at hopen
  rw [hrun, hfetch, valueIndicator, hkey]
  dsimp only
  rw [hplace, hcolumn, hopen]
  exact ⟨_, rfl, rfl, ⟨h.inRecord.1, rfl⟩, rfl, rfl, by simp [emit, moveTo]⟩

/-! ## Values -/

/-- A letter is neither blank nor the start of a comment. -/
theorem ne_blank_of_isAlpha {c : Char} (hc : c.isAlpha) :
    (c ≠ ' ' ∧ c ≠ '\t' ∧ c ≠ byteOrderMark) ∧ c ≠ '#' :=
  ⟨⟨ne_of_isAlpha hc rfl, ne_of_isAlpha hc rfl, ne_of_isAlpha hc rfl⟩, ne_of_isAlpha hc rfl⟩

/-- The scanner skips nothing at the start of a line. -/
theorem lineStart_of_head (hleft : s.rest = rest) (hhead : ∀ c ∈ rest.head?, c.isAlpha)
    (hready : rest ≠ [] → s.keyAllowed = true ∧ s.position.column = 0)
    (hrecord : s.InRecord opened) (hkey : s.key? = none) (htokens : s.tokens = before) :
    s.skip.LineStart opened before rest := by
  have hskip : s.skip = s := by
    match rest, hhead with
    | [], _ =>
      have hfrom : skipFrom s.inFlow s.keyAllowed false s.position s.rest =
          (s.keyAllowed, s.position, s.rest) := by
        rw [hleft]
        rfl
      rw [skip, hfrom]
    | c :: rest, hhead =>
      have hc : c.isAlpha := hhead c rfl
      exact skip_eq_self hleft (isBreak_of_isAlpha hc) (ne_blank_of_isAlpha hc).1
        (ne_blank_of_isAlpha hc).2
  rw [hskip]
  exact ⟨hleft, hready, hrecord, hkey, htokens⟩

/-- Behind the end of a line the scanner skips to the start of the next one. -/
theorem lineStart_of_end {ending : List Char} (hend : LineEnd ending rest)
    (hleft : s.rest = ending ++ rest) (hrecord : s.InRecord true) (hkey : s.key? = none)
    (htokens : s.tokens = before) : s.skip.LineStart true before rest := by
  cases hend with
  | last => exact lineStart_of_head hleft (fun _ => nofun) (absurd rfl) hrecord hkey htokens
  | feed hhead =>
    have hskip : s.skip =
        skip { s with keyAllowed := true, position := s.position.after '\n', rest } := by
      have hallow : (s.keyAllowed || !s.inFlow) = true := by
        rw [hrecord.inFlow]
        simp
      have hfrom : skipFrom s.inFlow s.keyAllowed false s.position s.rest =
          skipFrom s.inFlow true false (s.position.after '\n') rest := by
        rw [hleft, List.singleton_append, skipFrom, if_pos (by decide), hallow]
      rw [skip, hfrom]
      rfl
    rw [hskip]
    exact lineStart_of_head rfl hhead (fun _ => ⟨rfl, rfl⟩) hrecord hkey htokens

/-- The blank behind a colon is skipped. -/
theorem ColonRead.skip {c : Char} (h : s.ColonRead before (' ' :: c :: rest))
    (hbreak : isBreak c = false) (hblank : c ≠ ' ' ∧ c ≠ '\t' ∧ c ≠ byteOrderMark)
    (hcomment : c ≠ '#') : s.skip.ColonRead before (c :: rest) := by
  have hfrom : skipFrom s.inFlow s.keyAllowed false s.position s.rest =
      skipFrom s.inFlow s.keyAllowed false (s.position.after ' ') (c :: rest) := by
    rw [h.left, skipFrom]
    rfl
  have hskip : s.skip = { s with position := s.position.after ' ', rest := c :: rest } := by
    rw [← @skip_eq_self { s with position := s.position.after ' ', rest := c :: rest } _ _ rfl
      hbreak hblank hcomment, Layout.skip, hfrom]
    rfl
  rw [hskip]
  exact ⟨rfl, h.inRecord, h.keyAllowed, h.key, h.tokens⟩

/-- Where no key is allowed none is noted. -/
theorem ColonRead.noteKey (h : s.ColonRead before rest) : s.noteKey = .ok s := by
  rw [Layout.noteKey, h.keyAllowed]
  rfl

/-- A round in front of a value reads the token behind the blank. -/
theorem ColonRead.run_succ {c : Char} (h : s.skip.ColonRead before (c :: rest)) (n : Nat) :
    s.run (n + 1) = s.skip.fetch c rest >>= run n :=
  h.inRecord.run_succ (by rw [h.key]; rfl) h.left n

/-- A word is read as a value, together with the end of its line. -/
theorem ColonRead.word {word ending : List Char}
    (h : s.ColonRead before (' ' :: (word ++ (ending ++ rest)))) (hword : IsWord word)
    (hend : LineEnd ending rest) (n : Nat) :
    ∃ t : Layout, s.run (n + 1) = t.run n ∧
      t.skip.LineStart true (before ++ [.scalar .plain word]) rest := by
  obtain ⟨c, letters, rfl⟩ := List.exists_cons_of_ne_nil hword.ne_nil
  have hc : c.isAlpha := hword.letters c List.mem_cons_self
  have hvalue := h.skip (isBreak_of_isAlpha hc) (ne_blank_of_isAlpha hc).1
    (ne_blank_of_isAlpha hc).2
  rw [hvalue.run_succ, fetch_letter hc]
  generalize s.skip = t at hvalue
  have hcolumn : 0 < t.indent + 1 := by
    have hindent : t.indent = 0 := congrArg Prod.fst hvalue.inRecord.2
    omega
  have hleft : t.rest = (c :: letters ++ ending) ++ rest := by
    rw [hvalue.left]
    exact (List.append_assoc (c :: letters) ending rest).symm
  have hread := @readPlain_value ⟨t.inFlow, t.indent + 1⟩ hvalue.inRecord.inFlow hcolumn _ hword
    t.position.column _ _ hend
  rw [← List.append_assoc] at hread
  rw [plain_eq_ok hvalue.noteKey hleft hread, ok_bind]
  refine ⟨_, rfl, lineStart_of_head rfl ?_ ?_ hvalue.inRecord hvalue.key (by rw [← hvalue.tokens])⟩
  · cases hend with
    | last => exact fun _ => nofun
    | feed hhead => exact hhead
  · -- Something follows only behind a line feed
    cases hend with
    | last => exact absurd rfl
    | feed =>
      intro _
      rw [List.foldl_append]
      exact ⟨rfl, rfl⟩

/-- A text in double quotes is read as a value. -/
theorem ColonRead.quoted {text ending : List Char}
    (h : s.ColonRead before (' ' :: '\x22' :: (text ++ '\x22' :: (ending ++ rest))))
    (htext : ∀ c ∈ text, isInline c) (hend : LineEnd ending rest) (n : Nat) :
    ∃ t : Layout, s.run (n + 1) = t.run n ∧
      t.skip.LineStart true (before ++ [.scalar .doubleQuoted text]) rest := by
  have hvalue := h.skip (by decide) (by decide) (by decide)
  rw [hvalue.run_succ]
  generalize s.skip = t at hvalue
  have hfetch : ∀ rest, t.fetch '\x22' rest =
      t.quotation .doubleQuoted (readDoubleQuoted .text Gap.none [] false rest) := by
    intro rest
    have hmark : atDocumentMark ('\x22' :: rest) = false := by
      match rest with
      | [] => rfl
      | [_] => rfl
      | _ :: _ :: _ => simp [atDocumentMark]
    unfold fetch
    simp [hmark]
  rw [hfetch, readDoubleQuoted_inline htext, quotation, hvalue.noteKey]
  refine ⟨_, rfl, lineStart_of_end hend rfl hvalue.inRecord hvalue.key ?_⟩
  rw [← hvalue.tokens]
  rfl

/-- The value behind a name is read, and the scanner skips to the start of the next line. -/
theorem ColonRead.value {value : FieldValue} {ending : List Char}
    (h : s.ColonRead before (' ' :: (value.chars ++ (ending ++ rest)))) (hvalue : value.Fits)
    (hend : LineEnd ending rest) (n : Nat) :
    ∃ t : Layout, s.run (n + 1) = t.run n ∧
      t.skip.LineStart true (before ++ [.scalar value.style value.text]) rest := by
  cases value with
  | word word => exact h.word hvalue hend n
  | quoted text =>
    have hquoted : s.ColonRead before
        (' ' :: '\x22' :: (text ++ '\x22' :: (ending ++ rest))) := by
      rw [FieldValue.chars, List.cons_append, List.append_assoc] at h
      exact h
    exact hquoted.quoted hvalue hend n

/-! ## The whole record -/

/-- The three rounds of a line. -/
theorem LineStart.line {line : FieldLine} {ending : List Char}
    (h : s.skip.LineStart opened before (line.chars ++ (ending ++ rest))) (hline : line.Fits)
    (hend : LineEnd ending rest) (n : Nat) :
    ∃ t : Layout, s.run (n + 3) = t.run n ∧ t.skip.LineStart true
      (before ++ (if opened then [] else [.blockMappingStart]) ++ line.tokens) rest := by
  rw [FieldLine.chars, List.append_assoc] at h
  obtain ⟨named, hnamed, hname⟩ := LineStart.name h hline.name hline.short (n + 2)
  obtain ⟨parted, hparted, hcolon⟩ := hname.colon (n + 1)
  obtain ⟨t, hvalued, hstart⟩ := hcolon.value hline.value hend n
  refine ⟨t, hnamed.trans (hparted.trans hvalued), ?_⟩
  rw [List.append_assoc] at hstart
  exact hstart

/-- At the end of a record its mapping is closed. -/
theorem LineStart.ended (h : s.skip.LineStart true before []) (n : Nat) :
    s.run (n + 1) = .ok (before ++ [.blockEnd, .streamEnd]) := by
  have hindent : s.skip.indent ≤ (s.skip.position.column : Int) := by
    have := h.inRecord.indent_le
    omega
  rw [run, refreshKeys_eq h.inRecord.1 (by rw [h.key]; rfl), ok_bind, closeBlocks_eq hindent]
  generalize s.skip = t at h
  obtain ⟨hindent, houter⟩ : t.indent = 0 ∧ t.outerIndents = [-1] := Prod.mk.inj h.inRecord.2
  have hclose : closeIndents (-1) t.indent t.outerIndents = (-1, [], 1) := by
    rw [hindent, houter]
    rfl
  simp only [h.left]
  rw [finish, closeBlocks, h.inRecord.inFlow, hclose, dropKey]
  simp only [h.key, h.tokens, Bool.false_eq_true, if_false, ok_bind]
  rw [List.append_assoc]
  rfl

/-- A record that goes on begins with a letter. -/
theorem isAlpha_head_recordText {ending : List Char} {lines : List FieldLine}
    (hlines : ∀ line ∈ lines, line.Fits) : ∀ c ∈ (recordText ending lines).head?, c.isAlpha := by
  cases lines with
  | nil => exact fun _ => nofun
  | cons line lines =>
    have hname := (hlines line List.mem_cons_self).name
    obtain ⟨first, letters, hcons⟩ := List.exists_cons_of_ne_nil hname.ne_nil
    intro c hc
    rw [recordText, FieldLine.chars, hcons] at hc
    obtain rfl : first = c := Option.some.inj hc
    exact hname.letters first (by rw [hcons]; exact List.mem_cons_self)

/-- The rounds of all lines of a record. -/
theorem LineStart.lines {ending : List Char} (hending : ending = [] ∨ ending = ['\n'])
    {lines : List FieldLine} (hlines : ∀ line ∈ lines, line.Fits) (hopened : lines = [] → opened)
    (h : s.skip.LineStart opened before (recordText ending lines)) (n : Nat) :
    s.run (n + 1 + 3 * lines.length) = .ok
      (before ++ (if opened then [] else [.blockMappingStart]) ++ lines.flatMap FieldLine.tokens ++
        [.blockEnd, .streamEnd]) := by
  induction lines generalizing s opened before with
  | nil =>
    obtain rfl := hopened rfl
    rw [List.length_nil, Nat.mul_zero, Nat.add_zero, LineStart.ended h]
    simp
  | cons line lines ih =>
    obtain ⟨hline, hlines⟩ := List.forall_mem_cons.1 hlines
    have hend : LineEnd (if lines.isEmpty then ending else ['\n']) (recordText ending lines) := by
      cases lines with
      | nil =>
        rcases hending with rfl | rfl
        · exact .last
        · exact .feed fun _ => nofun
      | cons next lines => exact .feed (isAlpha_head_recordText hlines)
    obtain ⟨t, hrun, hstart⟩ := LineStart.line h hline hend (n + 1 + 3 * lines.length)
    rw [List.length_cons, Nat.mul_succ, ← Nat.add_assoc, hrun, ih hlines (fun _ => rfl) hstart]
    simp

end Layout

/-- A record consists of shown ASCII characters, spaces and line feeds. -/
theorem ascii_of_mem_recordText {ending : List Char} (hending : ending = [] ∨ ending = ['\n'])
    {lines : List FieldLine} (hlines : ∀ line ∈ lines, line.Fits) :
    ∀ c ∈ recordText ending lines, c = '\n' ∨ (0x20 ≤ c.toNat ∧ c.toNat ≤ 0x7e) := by
  induction lines with
  | nil => exact fun _ => nofun
  | cons line lines ih =>
    obtain ⟨hline, hlines⟩ := List.forall_mem_cons.1 hlines
    intro c hc
    rw [recordText, FieldLine.chars, List.append_assoc, List.mem_append, List.cons_append,
      List.cons_append, List.mem_cons, List.mem_cons, List.mem_append, List.mem_append] at hc
    rcases hc with hname | rfl | rfl | hv | hend | hrest
    · exact Or.inr (toNat_of_isAlpha (hline.name.letters c hname))
    · decide
    · decide
    · exact Or.inr (hline.value.ascii c hv)
    · left
      split at hend
      · rcases hending with rfl | rfl
        · exact absurd hend List.not_mem_nil
        · exact List.mem_singleton.1 hend
      · exact List.mem_singleton.1 hend
    · exact ih hlines c hrest

/-- There is nothing to unify in a text whose only line breaks are line feeds. -/
theorem unifyBreaks_eq_self {cs : List Char} (h : ∀ c ∈ cs, c ≠ '\r' ∧ c ≠ '\u0085') :
    unifyBreaks cs = cs := by
  fun_induction unifyBreaks cs with
  | case1 => rfl
  | case2 cs ih => exact absurd rfl (h _ List.mem_cons_self).1
  | case3 c cs hpair ih =>
    obtain ⟨hc, h⟩ := List.forall_mem_cons.1 h
    rw [if_neg (not_or.2 hc), ih h]

/-- A line has at least as many characters as rounds. -/
theorem length_recordText (ending : List Char) {lines : List FieldLine}
    (hlines : ∀ line ∈ lines, line.Fits) : 3 * lines.length ≤ (recordText ending lines).length := by
  induction lines with
  | nil => exact Nat.le_refl 0
  | cons line lines ih =>
    obtain ⟨hline, hlines⟩ := List.forall_mem_cons.1 hlines
    have hname : 0 < line.name.length := List.length_pos_iff.2 hline.name.ne_nil
    have := ih hlines
    simp only [recordText, FieldLine.chars, List.length_append, List.length_cons]
    omega

/-- The tokens of a record. -/
theorem tokens_recordText {ending : List Char} (hending : ending = [] ∨ ending = ['\n'])
    {lines : List FieldLine} (hlines : ∀ line ∈ lines, line.Fits) (hne : lines ≠ []) :
    tokens (recordText ending lines) = .ok
      (.blockMappingStart :: lines.flatMap FieldLine.tokens ++ [.blockEnd, .streamEnd]) := by
  have hascii := ascii_of_mem_recordText hending hlines
  have hallowed : (recordText ending lines).all isAllowed = true := by
    refine List.all_eq_true.2 fun c hc => ?_
    rcases hascii c hc with rfl | ⟨hlow, hhigh⟩
    · decide
    · simp [isAllowed, hlow, hhigh]
  have hunify : unifyBreaks (recordText ending lines) = recordText ending lines := by
    refine unifyBreaks_eq_self fun c hc => ?_
    constructor
    all_goals
      rintro rfl
      exact absurd (hascii _ hc) (by decide)
  obtain ⟨n, hn⟩ := Nat.le.dest (length_recordText ending hlines)
  have hrounds : (recordText ending lines).length + 1 = n + 1 + 3 * lines.length := by omega
  have hstart : (Layout.start (recordText ending lines)).skip.LineStart false []
      (recordText ending lines) :=
    Layout.lineStart_of_head rfl (Layout.isAlpha_head_recordText hlines) (fun _ => ⟨rfl, rfl⟩)
      ⟨rfl, rfl⟩ rfl rfl
  rw [tokens, if_pos hallowed, hunify]
  dsimp only
  rw [hrounds, hstart.lines hending hlines (fun h => absurd h hne)]
  rfl

end Stencil.Yaml
