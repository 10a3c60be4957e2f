import MiniScheme.Proofs.Expr.Runs
import MiniScheme.Proofs.Token.Tiling

/-! Sources extended by a line. A newline ends every lexeme except a blank and an open string, so
the tokens before it are preserved, and those after it are only shifted. -/
namespace MiniScheme

open MiniScheme.Expr (withoutBlanks)
open Text (encode first?)

def Token.relocate (f : Position → Position) (t : Token) : Token :=
  { t with pos := f t.pos }

@[simp] theorem Token.kind_relocate (f : Position → Position) (t : Token) :
    (t.relocate f).kind = t.kind := rfl

def LexError.relocate (f : Position → Position) : LexError → LexError
  | unexpectedChar pos c => unexpectedChar (f pos) c
  | unexpectedEnd pos => unexpectedEnd (f pos)
  | integerOverflow pos text => integerOverflow (f pos) text

section

variable {pos pos' : Position} {text rest : Bytes} {ts : List Token}

theorem Flaw.shift {e : LexError} (h : Flaw pos text e) (bytes lines : Nat) :
    Flaw (pos.shift bytes lines) text (e.relocate (.shift bytes lines)) := by
  cases h with
  | stray hc hs => exact .stray hc hs
  | loneHash =>
    rw [LexError.relocate, ← Position.shift_past]
    exact .loneHash
  | notBoolean hc ht hf =>
    rw [LexError.relocate, ← Position.shift_past]
    exact .notBoolean hc ht hf
  | unclosed body =>
    rw [LexError.relocate, ← Position.shift_past]
    exact .unclosed body
  | cutEscape body =>
    rw [LexError.relocate, ← Position.shift_past]
    exact .cutEscape body
  | badEscape body hc he =>
    rw [LexError.relocate, ← Position.shift_past]
    exact .badEscape body hc he
  | overflow hw hrest => exact .overflow hw hrest

namespace Cursor

theorem Halts.shift {fault : Option LexError} (h : Halts pos text fault) (bytes lines : Nat) :
    Halts (pos.shift bytes lines) text (fault.map (.relocate (.shift bytes lines))) := by
  cases h with
  | finished => exact .finished
  | flaw h => exact .flaw (h.shift bytes lines)

theorem Scans.shift (h : Scans pos text ts pos' rest) (bytes lines : Nat) :
    Scans (pos.shift bytes lines) text (ts.map (.relocate (.shift bytes lines)))
      (pos'.shift bytes lines) rest := by
  induction h with
  | done => exact .done
  | @token pos pos' l text rest ts h hs ih =>
    rw [← Position.shift_past] at ih
    exact .token h ih

/-- Lexing commutes with a shift of the starting position. -/
theorem collect_shift {fault : Option LexError} (h : tokenize text = (ts, fault))
    (bytes lines : Nat) :
    (facing (.shift bytes lines {}) text).collect.1 =
      (ts.map (.relocate (.shift bytes lines)), fault.map (.relocate (.shift bytes lines))) := by
  obtain ⟨pos, rest, hs, hf⟩ := tokenize_eq_iff.1 h
  exact collect_facing_iff.2 ⟨_, _, hs.shift bytes lines, hf.shift bytes lines⟩

end Cursor

end

theorem isBoundary_newline (more : Bytes) : Text.IsBoundary (0x0A :: more) :=
  Text.isBoundary_encode '\n' more

theorem first?_newline (more : Bytes) : first? (0x0A :: more) = some '\n' :=
  Text.first?_encode '\n' more

theorem ne_nil_of_first? {text : Bytes} {c : Char} (h : first? text = some c) : text ≠ [] := by
  rintro rfl
  cases h

/-- A maximal lexeme stays maximal when a line is appended. -/
theorem Lexeme.StopsAt.append_line {l : Lexeme} {text : Bytes} (h : l.StopsAt text)
    (hne : text ≠ [] ∨ l.kind ≠ .blank) (more : Bytes) : l.StopsAt (text ++ 0x0A :: more) := by
  by_cases htext : text = []
  · subst htext
    have hkind := hne.resolve_left fun hne => hne rfl
    intro c hc
    rw [List.nil_append, first?_newline] at hc
    cases hc
    cases l with
    | blank => exact absurd rfl hkind
    | opening | closing | boolean | identifier | integer | string => rfl
  · intro c hc
    rw [Text.first?_append htext (isBoundary_newline more)] at hc
    exact h c hc

/-- A flaw other than a premature end persists when a line is appended. -/
theorem Flaw.append_line {pos : Position} {text : Bytes} {e : LexError} (h : Flaw pos text e)
    (he : e.isIncomplete = false) (more : Bytes) : Flaw pos (text ++ 0x0A :: more) e := by
  have hfirst {text : Bytes} {c : Char} (hc : first? text = some c) :
      first? (text ++ 0x0A :: more) = some c := by
    rw [Text.first?_append (ne_nil_of_first? hc) (isBoundary_newline more), hc]
  cases h with
  | stray hc hs => exact .stray (hfirst hc) hs
  | loneHash | unclosed | cutEscape => cases he
  | notBoolean hc ht hf =>
    rw [List.append_assoc]
    exact .notBoolean (hfirst hc) ht hf
  | badEscape body hc hletter =>
    rw [List.append_assoc]
    exact .badEscape body (hfirst hc) hletter
  | @overflow w rest hw hrest =>
    rw [List.append_assoc]
    refine .overflow hw ?_
    intro c hc
    by_cases hne : rest = []
    · subst hne
      rw [List.nil_append, first?_newline] at hc
      cases hc
      rfl
    · rw [Text.first?_append hne (isBoundary_newline more)] at hc
      exact hrest c hc

theorem Flaw.ne_nil {pos : Position} {text : Bytes} {e : LexError} (h : Flaw pos text e) :
    text ≠ [] := by
  rintro rfl
  cases Cursor.next_flaw pos h

/-- A line that makes every continuable source fail permanently: outside a string no lexeme starts
with a backslash, and inside a string this is no escape. -/
def spoiler : Bytes :=
  ascii "\\q"

/-- The spoiler turns a premature end into a permanent error. -/
theorem Flaw.spoil {pos : Position} {text : Bytes} {e : LexError} (h : Flaw pos text e)
    (he : e.isIncomplete = true) :
    ∃ e', e'.isIncomplete = false ∧ Flaw pos (text ++ 0x0A :: spoiler) e' := by
  cases h with
  | stray | notBoolean | badEscape | overflow => cases he
  | loneHash => exact ⟨_, rfl, .notBoolean (first?_newline _) (by decide) (by decide)⟩
  | unclosed body =>
    have hopened : Piece.opened body ++ 0x0A :: spoiler =
        Piece.opened (body ++ [.raw ⟨0x0A, by decide⟩]) ++ encode '\\' ++ encode 'q' := by
      simp [Piece.opened, Piece.spellAll, Piece.spelling]
      rfl
    rw [hopened]
    have hq : first? (encode 'q') = some 'q' := rfl
    refine ⟨_, ?_, .badEscape _ hq ?_⟩
    · rfl
    · intro e
      cases e <;> decide
  | cutEscape body =>
    refine ⟨_, ?_, .badEscape body (first?_newline _) ?_⟩
    · rfl
    · intro e
      cases e <;> decide

namespace Cursor

variable {pos pos' : Position} {text rest : Bytes} {ts : List Token}

theorem Scans.ne_nil (h : Scans pos text ts pos' rest) (hne : rest ≠ []) : text ≠ [] := by
  cases h with
  | done => exact hne
  | @token _ _ l text _ _ hl hs =>
    intro hnil
    exact l.spelling_ne_nil (List.append_eq_nil_iff.1 hnil).1

theorem Scans.eq_of_nil (h : Scans pos [] ts pos' rest) : ts = [] ∧ pos' = pos := by
  generalize hnil : ([] : Bytes) = text at h
  cases h with
  | done => exact ⟨rfl, rfl⟩
  | @token _ _ l text _ _ hl hs =>
    exact absurd (List.append_eq_nil_iff.1 hnil.symm).1 l.spelling_ne_nil

/-- Where the rest stops the scan, an appended line preserves the scan. -/
theorem Scans.append_line (h : Scans pos text ts pos' rest) (hne : rest ≠ []) (more : Bytes) :
    Scans pos (text ++ 0x0A :: more) ts pos' (rest ++ 0x0A :: more) := by
  induction h with
  | done => exact .done
  | @token pos pos' l text rest ts hl hs ih =>
    rw [List.append_assoc]
    exact .token (hl.append_line (.inl (hs.ne_nil hne)) more) (ih hne)

theorem exists_scans_blanks (pos : Position) (w : Word Token.isSpace) {rest : Bytes}
    (h : ∀ c ∈ first? rest, Token.isSpace c = false) :
    ∃ bs, withoutBlanks bs = [] ∧ Scans pos (w.spelling ++ rest) bs (pos.past w.spelling) rest := by
  cases w with
  | nil => exact ⟨[], rfl, .done⟩
  | cons c w => exact ⟨[(Lexeme.blank c w).token pos], rfl, .token (l := .blank c w) h .done⟩

/-- Blanks, a newline and the blanks after it form one token. -/
theorem exists_scans_newline (pos : Position) (w : Word Token.isSpace) (more : Bytes) :
    ∃ bs bs' pos' rest, withoutBlanks bs = [] ∧ withoutBlanks bs' = [] ∧
      Scans pos (w.spelling ++ 0x0A :: more) bs pos' rest ∧
      Scans ((pos.past w.spelling).past [0x0A]) more bs' pos' rest := by
  obtain ⟨v, rest, rfl, hrest⟩ := Word.exists_longest (p := Token.isSpace) (by decide) more
  let newline : {c : Char // Token.isSpace c} := ⟨'\n', rfl⟩
  have hword : Word.spelling (w ++ newline :: v) = w.spelling ++ (encode '\n' ++ v.spelling) := by
    rw [Word.spelling_append, Word.spelling_cons]
  have hspelling : w.spelling ++ 0x0A :: (v.spelling ++ rest) =
      Word.spelling (w ++ newline :: v) ++ rest := by
    rw [hword, List.append_assoc, List.append_assoc]
    rfl
  have hpast : ((pos.past w.spelling).past [0x0A]).past v.spelling =
      pos.past (Word.spelling (w ++ newline :: v)) := by
    rw [hword, Position.past_whole _ w.isWhole_spelling,
      Position.past_whole _ (Text.isWhole_encode _)]
    rfl
  obtain ⟨bs, hbs, hs⟩ := exists_scans_blanks pos (w ++ newline :: v) hrest
  obtain ⟨bs', hbs', hs'⟩ := exists_scans_blanks ((pos.past w.spelling).past [0x0A]) v hrest
  rw [hpast] at hs'
  rw [hspelling]
  exact ⟨bs, bs', _, rest, hbs, hbs', hs, hs'⟩

/-- The tokens of a line after a completely scanned source are those of the line alone, except for
leading blanks, which belong to the newline. -/
theorem Scans.append_next_line (h : Scans pos text ts pos' rest) (hnil : rest = [])
    (more : Bytes) :
    ∃ us bs pos'' rest', withoutBlanks us = withoutBlanks ts ∧ withoutBlanks bs = [] ∧
      Scans pos (text ++ 0x0A :: more) us pos'' rest' ∧
      Scans (pos'.past [0x0A]) more bs pos'' rest' := by
  induction h with
  | @done pos text =>
    subst hnil
    exact exists_scans_newline pos [] more
  | @token pos pos' l text tail ts hl hs ih =>
    by_cases hstop : text ≠ [] ∨ l.kind ≠ .blank
    · obtain ⟨us, bs, pos'', rest, hus, hbs, hs, hs'⟩ := ih hnil
      refine ⟨l.token pos :: us, bs, pos'', rest, ?_, hbs, ?_, hs'⟩
      · simp only [withoutBlanks, List.filter_cons] at hus ⊢
        rw [hus]
      · rw [List.append_assoc]
        exact .token (hl.append_line hstop more) hs
    · obtain ⟨htext, hkind⟩ := not_or.1 hstop
      have htext := Decidable.of_not_not htext
      have hkind := Decidable.of_not_not hkind
      subst htext
      cases l with
      | blank c w =>
        obtain ⟨rfl, rfl⟩ := hs.eq_of_nil
        rw [List.append_nil]
        exact exists_scans_newline pos (c :: w) more
      | opening | closing | boolean | identifier | integer | string => cases hkind

theorem Scans.past_eq (h : Scans pos text ts pos' rest) : pos.past text = pos'.past rest := by
  induction h with
  | done => rfl
  | @token pos pos' l text rest ts hl hs ih => rw [Position.past_whole _ l.isWhole_spelling, ih]

end Cursor

section

variable {source : Bytes} {ts : List Token}

/-- After a source without lexical errors a line has its own tokens, shifted, up to blanks. -/
theorem tokenize_append_line (h : tokenize source = (ts, none)) (line : Bytes) :
    ∃ us bs vs fault, withoutBlanks us = withoutBlanks ts ∧ withoutBlanks bs = [] ∧
      tokenize (source ++ 0x0A :: line) = (us ++ vs, fault) ∧
      (Cursor.facing (Position.past {} (source ++ [0x0A])) line).collect.1 = (bs ++ vs, fault) := by
  obtain ⟨pos, rest, hs, hf⟩ := tokenize_eq_iff.1 h
  cases hf with
  | finished =>
    have hpos : pos = Position.past {} source := hs.past_eq.symm
    subst hpos
    obtain ⟨us, bs, pos', rest, hus, hbs, hs, hs'⟩ := hs.append_next_line rfl line
    have hc := hs.collect
    have hc' := hs'.collect
    rw [← Position.past_append _ _ (isBoundary_newline [])] at hc'
    exact ⟨us, bs, _, _, hus, hbs, hc, hc'⟩

/-- The tokens before a lexical error are preserved when the source is extended. -/
theorem tokenize_append_of_fault {e : LexError} (h : tokenize source = (ts, some e)) :
    ∃ pos rest, Flaw pos rest e ∧ ∀ line,
      let c := Cursor.facing pos (rest ++ 0x0A :: line)
      tokenize (source ++ 0x0A :: line) = (ts ++ c.collect.1.1, c.collect.1.2) := by
  obtain ⟨pos, rest, hs, hf⟩ := tokenize_eq_iff.1 h
  cases hf with
  | flaw he => exact ⟨pos, rest, he, fun line => (hs.append_line he.ne_nil line).collect⟩

/-- Up to blanks, the tokens of a source are preserved when a line is appended. -/
theorem exists_tokenize_line {fault : Option LexError} (h : tokenize source = (ts, fault))
    (line : Bytes) :
    ∃ us vs fault', withoutBlanks us = withoutBlanks ts ∧
      tokenize (source ++ 0x0A :: line) = (us ++ vs, fault') := by
  cases fault with
  | none =>
    obtain ⟨us, -, vs, fault', hus, -, ht, -⟩ := tokenize_append_line h line
    exact ⟨us, vs, fault', hus, ht⟩
  | some e =>
    obtain ⟨pos, rest, -, ht⟩ := tokenize_append_of_fault h
    exact ⟨ts, _, _, rfl, ht line⟩

/-- A lexical error other than a premature end is preserved. -/
theorem tokenize_line_of_permanent {e : LexError} (h : tokenize source = (ts, some e))
    (he : e.isIncomplete = false) (line : Bytes) :
    tokenize (source ++ 0x0A :: line) = (ts, some e) := by
  obtain ⟨pos, rest, hflaw, ht⟩ := tokenize_append_of_fault h
  have hc := (Cursor.Halts.flaw (hflaw.append_line he line)).collect
  rw [ht line, hc, List.append_nil]

/-- The spoiler adds no token and leaves an error that no further line removes. -/
theorem exists_tokenize_spoiler {fault : Option LexError} (h : tokenize source = (ts, fault))
    (hf : ∀ e ∈ fault, e.isIncomplete = true) :
    ∃ us e, withoutBlanks us = withoutBlanks ts ∧ e.isIncomplete = false ∧
      tokenize (source ++ 0x0A :: spoiler) = (us, some e) := by
  cases fault with
  | none =>
    obtain ⟨us, bs, vs, fault', hus, -, ht, hc⟩ := tokenize_append_line h spoiler
    have hflaw (pos : Position) : Flaw pos spoiler (.unexpectedChar pos '\\') :=
      .stray rfl (by decide)
    rw [(Cursor.Halts.flaw (hflaw _)).collect] at hc
    obtain ⟨htokens, hfault⟩ := Prod.mk.inj hc
    obtain ⟨-, rfl⟩ := List.append_eq_nil_iff.1 htokens.symm
    rw [← hfault, List.append_nil] at ht
    exact ⟨us, _, hus, rfl, ht⟩
  | some e =>
    obtain ⟨pos, rest, hflaw, ht⟩ := tokenize_append_of_fault h
    obtain ⟨e', he', hflaw'⟩ := hflaw.spoil (hf e rfl)
    refine ⟨ts, e', rfl, he', ?_⟩
    rw [ht spoiler, (Cursor.Halts.flaw hflaw').collect, List.append_nil]

end

end MiniScheme
