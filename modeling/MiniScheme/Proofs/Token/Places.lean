import Mathlib.Data.List.DropRight
import MiniScheme.Proofs.Token.Tiling

/-! Positions of tokens and lexical errors. A position is determined by its offset: lines count the
newlines before it, columns the characters since the last newline. -/
namespace MiniScheme

open Text (IsWhole encode first? glyphs)

namespace Text

def lastLine (text : Bytes) : Bytes :=
  text.rtakeWhile (· ≠ 0x0A)

theorem lastLine_of_notMem {text : Bytes} (h : 0x0A ∉ text) : lastLine text = text := by
  unfold lastLine
  rw [List.rtakeWhile_eq_self_iff]
  intro b hb
  rw [decide_eq_true_eq]
  rintro rfl
  exact h hb

theorem lastLine_append_of_mem (text : Bytes) {rest : Bytes} (h : 0x0A ∈ rest) :
    lastLine (text ++ rest) = lastLine rest := by
  unfold lastLine List.rtakeWhile
  have hstop : (rest.reverse.takeWhile (· ≠ 0x0A)).length ≠ rest.reverse.length := by
    intro hlen
    have hself := (List.takeWhile_prefix _).eq_of_length hlen
    have hall := List.takeWhile_eq_self_iff.1 hself 0x0A (List.mem_reverse.2 h)
    exact absurd hall (by decide)
  rw [List.reverse_append, List.takeWhile_append, if_neg hstop]

theorem lastLine_newline {text : Bytes} (h : 0x0A ∉ text) : lastLine (0x0A :: text) = text := by
  have hself := lastLine_of_notMem h
  unfold lastLine List.rtakeWhile at hself ⊢
  have hall := List.takeWhile_eq_self_iff.1 (List.reverse_eq_iff.1 hself)
  rw [List.reverse_cons, List.takeWhile_append_of_pos hall]
  simp

theorem glyphs_ne_nil {text : Bytes} (h : text ≠ []) : glyphs text ≠ [] := by
  intro hnil
  have hs := spelling_glyphs text
  rw [hnil] at hs
  exact h hs.symm

theorem IsWhole.first?_append {text : Bytes} (h : IsWhole text) (hne : text ≠ []) (rest : Bytes) :
    first? (text ++ rest) = first? text := by
  unfold first?
  rw [h rest, List.head?_append_of_ne_nil _ (glyphs_ne_nil hne)]

/-- The text is split between two characters. -/
structure IsCut (text before after : Bytes) : Prop where
  bytes : text = before ++ after
  chars : glyphs text = glyphs before ++ glyphs after

end Text

namespace Position

/-- The position of an offset in a source. -/
def ofOffset (source : Bytes) (offset : Nat) : Position :=
  let before := source.take offset
  ⟨offset, before.count 0x0A, (glyphs (Text.lastLine before)).length⟩

def columnAfter (start : Int) (text : Bytes) : Int :=
  if 0x0A ∈ text then (glyphs (Text.lastLine text)).length else start + (glyphs text).length

theorem columnAfter_glyph {g : Text.Glyph} {rest : Bytes}
    (hglyphs : glyphs (g.bytes ++ rest) = g :: glyphs rest)
    (hnewline : g.char = '\n' → g.bytes = [0x0A]) (hother : g.char ≠ '\n' → 0x0A ∉ g.bytes)
    (p : Position) :
    columnAfter (p.step g).column rest = columnAfter p.column (g.bytes ++ rest) := by
  unfold columnAfter
  by_cases hrest : 0x0A ∈ rest
  · have hmem : 0x0A ∈ g.bytes ++ rest := List.mem_append_right _ hrest
    rw [if_pos hrest, if_pos hmem, Text.lastLine_append_of_mem _ hrest]
  rw [if_neg hrest, step]
  by_cases hg : g.char = '\n'
  · have hmem : 0x0A ∈ [0x0A] ++ rest := List.mem_cons_self
    rw [if_pos hg, hnewline hg, if_pos hmem, List.singleton_append, Text.lastLine_newline hrest,
      Int.zero_add]
  · have hmem : 0x0A ∉ g.bytes ++ rest := by
      rw [List.mem_append, not_or]
      exact ⟨hother hg, hrest⟩
    rw [if_neg hg, if_neg hmem, hglyphs, List.length_cons]
    push_cast
    omega

theorem column_past (p : Position) (text : Bytes) :
    (p.past text).column = columnAfter p.column text := by
  induction text using Text.text_induction generalizing p with
  | nil => simp [columnAfter]
  | char c rest ih =>
    rw [past_encode, ih]
    apply columnAfter_glyph (Text.glyphs_encode c rest)
    · rintro rfl
      rfl
    · intro hc hmem
      exact hc (Text.eq_ofNat_of_mem_encode (by decide) hmem)
  | invalid b rest h ih =>
    have hb : 0x0A ≠ b := by
      rintro rfl
      exact h '\n' ⟨rest, rfl⟩
    have hr : Text.replacement ≠ '\n' := by decide
    rw [past_invalid p h, ih]
    apply columnAfter_glyph (g := ⟨Text.replacement, [b]⟩) (Text.glyphs_invalid h)
    · exact fun hc => absurd hc hr
    · intro _ hmem
      exact hb (List.mem_singleton.1 hmem)

/-- The position after a text is that of its length. -/
theorem past_eq_ofOffset (before after : Bytes) :
    past {} before = ofOffset (before ++ after) before.length := by
  have hoffset := offset_past {} before
  have hline := line_past {} before
  have hcolumn : (past {} before).column = (glyphs (Text.lastLine before)).length := by
    rw [column_past, columnAfter]
    split
    · rfl
    · rename_i hmem
      rw [Text.lastLine_of_notMem hmem, Int.zero_add]
  simp only [Int.zero_add] at hoffset hline
  simp only [ofOffset, List.take_left, ← hoffset, ← hline, ← hcolumn]

end Position

namespace Cursor

variable {pos pos' : Position} {text rest : Bytes} {ts : List Token}

theorem Scans.exists_before (h : Scans pos text ts pos' rest) :
    ∃ before, text = before ++ rest ∧ IsWhole before ∧ pos' = pos.past before := by
  induction h with
  | done => exact ⟨[], rfl, Text.isWhole_nil, rfl⟩
  | @token pos pos' l text rest ts hl hs ih =>
    obtain ⟨before, rfl, hwhole, rfl⟩ := ih
    refine ⟨l.spelling ++ before, ?_, l.isWhole_spelling.append hwhole, ?_⟩
    · rw [List.append_assoc]
    · rw [Position.past_whole _ l.isWhole_spelling]

/-- A scan passes through the position of each of its tokens. -/
theorem Scans.exists_at {us vs : List Token} {t : Token}
    (h : Scans pos text (us ++ t :: vs) pos' rest) :
    ∃ q l after, Scans pos text us q (Lexeme.spelling l ++ after) ∧ t = l.token q := by
  induction us generalizing pos text with
  | nil =>
    cases h with
    | token hl hs => exact ⟨pos, _, _, .done, rfl⟩
  | cons u us ih =>
    cases h with
    | token hl hs =>
      obtain ⟨q, m, after, hs', ht⟩ := ih hs
      exact ⟨q, m, after, .token hl hs', ht⟩

theorem Scans.exists_after {l : Lexeme} {before : Bytes} (h : Scans pos text ts pos' rest)
    (htext : l.spelling ++ text = before ++ rest) :
    ∃ mid, text = mid ++ rest ∧ IsWhole mid ∧ before = l.spelling ++ mid := by
  obtain ⟨mid, hmid, hwhole, -⟩ := h.exists_before
  refine ⟨mid, hmid, hwhole, ?_⟩
  rw [hmid, ← List.append_assoc] at htext
  exact (List.append_cancel_right htext).symm

/-- The rest of a scan may be removed, or replaced by a text with the same first character. -/
theorem Scans.cut {before rest' : Bytes} (h : Scans pos text ts pos' rest)
    (htext : text = before ++ rest) (hfirst : ∀ c ∈ first? rest', c ∈ first? rest) :
    Scans pos (before ++ rest') ts pos' rest' := by
  induction h generalizing before with
  | done =>
    rw [List.self_eq_append_left.1 htext]
    exact .done
  | @token pos pos' l text rest ts hl hs ih =>
    obtain ⟨mid, hmid, hwhole, hbefore⟩ := hs.exists_after htext
    rw [hbefore, List.append_assoc]
    refine .token ?_ (ih hmid hfirst)
    intro c hc
    refine hl c ?_
    rw [hmid]
    by_cases hne : mid = []
    · subst hne
      exact hfirst c hc
    · rw [hwhole.first?_append hne] at hc ⊢
      exact hc

end Cursor

/-- A lexeme that no digit extends does not end in a digit. -/
theorem Lexeme.isDigit_last {l : Lexeme} {c : Char} (h : l.prolongs c = false)
    (hc : Text.isDigit c) : ∀ g ∈ (glyphs l.spelling).getLast?, Text.isDigit g.char = false := by
  intro g hg
  cases l with
  | opening | closing =>
    cases hg
    rfl
  | boolean value =>
    cases value <;> cases hg <;> rfl
  | blank first others =>
    have hmem := List.mem_of_getLast? hg
    have hword := Cursor.glyphs_word (first :: others)
    rw [Word.spelling_cons] at hword
    rw [Lexeme.spelling, hword] at hmem
    obtain ⟨d, -, rfl⟩ := List.mem_map.1 hmem
    exact Token.isDigit_of_isSpace d.2
  | identifier =>
    have hsub : Token.isSubsequent c = true := by
      unfold Token.isSubsequent
      rw [hc]
      simp
    rw [prolongs, hsub] at h
    cases h
  | integer =>
    rw [prolongs, hc] at h
    cases h
  | string body =>
    rw [Lexeme.spelling, Text.glyphs_append _ (Text.isBoundary_encode_self _),
      Text.glyphs_encode_self, List.getLast?_concat] at hg
    cases hg
    rfl

theorem Cursor.Scans.isDigit_last {pos pos' : Position} {text rest before : Bytes} {ts : List Token}
    {c : Char} (h : Scans pos text ts pos' rest) (htext : text = before ++ rest)
    (hrest : first? rest = some c) (hc : Text.isDigit c) :
    ∀ g ∈ (glyphs before).getLast?, Text.isDigit g.char = false := by
  induction h generalizing before with
  | done =>
    rw [List.self_eq_append_left.1 htext]
    intro g hg
    cases hg
  | @token pos pos' l text rest ts hl hs ih =>
    obtain ⟨mid, hmid, -, hbefore⟩ := hs.exists_after htext
    rw [hbefore, l.isWhole_spelling mid]
    by_cases hne : mid = []
    · subst hne
      rw [hmid, List.nil_append] at hl
      rw [Text.glyphs_nil, List.append_nil]
      exact Lexeme.isDigit_last (hl c hrest) hc
    · rw [List.getLast?_append_of_ne_nil _ (Text.glyphs_ne_nil hne)]
      exact ih hmid hrest

/-- What is at the position of an error. The text before an unexpected character has no error but a
premature end, and an excessive integer is not preceded by a digit. -/
def LexError.Marks (before after : Bytes) : LexError → Prop
  | unexpectedChar _ c =>
    first? after = some c ∧ ∀ e ∈ (tokenize before).2, e.isIncomplete = true
  | unexpectedEnd _ => after = []
  | integerOverflow _ digits =>
    (∃ (w : Word Text.isDigit) (rest : Bytes), digits = w.spelling ∧ 2 ^ 64 ≤ w.number ∧
      after = w.spelling ++ rest ∧ ∀ c ∈ first? rest, Text.isDigit c = false) ∧
    ∀ g ∈ (glyphs before).getLast?, Text.isDigit g.char = false

/-- A flaw after a scan is marked at its position. -/
theorem Flaw.exists_marked {pos : Position} {before rest : Bytes} {ts : List Token} {e : LexError}
    (h : Flaw pos rest e) (hs : Cursor.Scans {} (before ++ rest) ts pos rest) :
    ∃ begun after, Text.IsCut rest begun after ∧ e.pos = pos.past begun ∧
      e.Marks (before ++ begun) after := by
  have hread {begun : Bytes} {fault : Option LexError}
      (hfirst : ∀ c ∈ first? begun, c ∈ first? rest) (hf : Cursor.Halts pos begun fault) :
      tokenize (before ++ begun) = (ts, fault) :=
    tokenize_eq_iff.2 ⟨_, _, hs.cut rfl hfirst, hf⟩
  have hend (text : Bytes) : Text.IsCut text text [] := by
    constructor
    · rw [List.append_nil]
    · rw [Text.glyphs_nil, List.append_nil]
  cases h with
  | stray hc hstart =>
    refine ⟨[], rest, ⟨rfl, rfl⟩, rfl, hc, ?_⟩
    rw [hread (by simp) .finished]
    intro e he
    cases he
  | loneHash => exact ⟨_, [], hend _, rfl, rfl⟩
  | @notBoolean after c hc ht hf =>
    refine ⟨encode '#', after, ⟨rfl, Text.isWhole_encode _ _⟩, rfl, hc, ?_⟩
    have hfirst : ∀ d ∈ first? (encode '#'), d ∈ first? (encode '#' ++ after) := by
      rw [Text.first?_encode]
      exact fun d hd => hd
    rw [hread hfirst (.flaw .loneHash)]
    intro e he
    cases he
    rfl
  | unclosed body => exact ⟨_, [], hend _, rfl, rfl⟩
  | cutEscape body => exact ⟨_, [], hend _, rfl, rfl⟩
  | @badEscape body after c hc he =>
    refine ⟨_, after, ⟨rfl, Text.isWhole_append_encode _ _ _⟩, rfl, hc, ?_⟩
    have hfirst : ∀ d ∈ first? (Piece.opened body ++ encode '\\'),
        d ∈ first? (Piece.opened body ++ encode '\\' ++ after) := by
      unfold Piece.opened
      simp only [List.append_assoc, Text.first?_encode]
      exact fun d hd => hd
    rw [hread hfirst (.flaw (.cutEscape body))]
    intro e he
    cases he
    rfl
  | @overflow w after hw hrest =>
    refine ⟨[], _, ⟨rfl, rfl⟩, rfl, ⟨w, after, rfl, hw, rfl, hrest⟩, ?_⟩
    rw [List.append_nil]
    cases w with
    | nil => exact absurd hw (by decide)
    | cons c w =>
      refine hs.isDigit_last rfl ?_ c.2
      rw [Word.spelling_cons, List.append_assoc, Text.first?_encode]

/-- Every token of a scan is before the end of the scan. -/
theorem Cursor.Scans.offset_lt {pos pos' : Position} {text rest : Bytes} {ts : List Token}
    (h : Scans pos text ts pos' rest) : ∀ t ∈ ts, t.pos.offset < pos'.offset := by
  induction h with
  | done => simp
  | @token pos pos' l text rest ts hl hs ih =>
    obtain ⟨before, -, -, hpos⟩ := hs.exists_before
    have hoffset : pos'.offset = pos.offset + l.spelling.length + before.length := by
      rw [hpos, Position.offset_past, Position.offset_past]
    have hlength := List.length_pos_iff.2 l.spelling_ne_nil
    intro t ht
    rcases List.mem_cons.1 ht with rfl | ht
    · have hself : (l.token pos).pos.offset = pos.offset := rfl
      omega
    · exact ih t ht

theorem offset_lt_of_tokenize {source : Bytes} {ts : List Token} {e : LexError}
    (h : tokenize source = (ts, some e)) : ∀ t ∈ ts, t.pos.offset < e.pos.offset := by
  obtain ⟨pos, rest, hs, hf⟩ := tokenize_eq_iff.1 h
  obtain ⟨before, rfl, -, -⟩ := hs.exists_before
  cases hf with
  | flaw hflaw =>
    obtain ⟨begun, after, -, hplace, -⟩ := hflaw.exists_marked hs
    intro t ht
    have hlt := hs.offset_lt t ht
    rw [hplace, Position.offset_past]
    omega

/-- Every token, and the lexical error if there is one, has the position of an offset between two
characters. The lexeme of a token is at its position, and an error marks what it names. -/
theorem tokenize_places (source : Bytes) :
    (∀ t ∈ (tokenize source).1, ∃ before l after,
      Text.IsCut source before (Lexeme.spelling l ++ after) ∧
      t = l.token (.ofOffset source before.length)) ∧
    ∀ e ∈ (tokenize source).2, ∃ before after, Text.IsCut source before after ∧
      e.pos = .ofOffset source before.length ∧ e.Marks before after := by
  obtain ⟨⟨ts, fault⟩, htokens⟩ : ∃ r, tokenize source = r := ⟨_, rfl⟩
  obtain ⟨pos, rest, hs, hf⟩ := tokenize_eq_iff.1 htokens
  rw [htokens]
  constructor
  · intro t ht
    obtain ⟨us, vs, rfl⟩ := List.append_of_mem ht
    obtain ⟨q, l, after, hus, rfl⟩ := hs.exists_at
    obtain ⟨before, rfl, hwhole, rfl⟩ := hus.exists_before
    refine ⟨before, l, after, ⟨rfl, hwhole _⟩, ?_⟩
    rw [Position.past_eq_ofOffset before (l.spelling ++ after)]
  · intro e he
    cases hf with
    | finished => cases he
    | flaw hflaw =>
      cases he
      obtain ⟨before, rfl, hwhole, hpos⟩ := hs.exists_before
      obtain ⟨begun, after, hcut, hplace, hmarks⟩ := hflaw.exists_marked hs
      refine ⟨before ++ begun, after, ⟨?_, ?_⟩, ?_, hmarks⟩
      · rw [hcut.bytes, List.append_assoc]
      · rw [hwhole, hcut.chars, hwhole, List.append_assoc]
      · rw [hplace, hpos, ← Position.past_whole _ hwhole, Position.past_eq_ofOffset _ after,
          List.append_assoc, ← hcut.bytes]

/-- A blank after a letter of two bytes, and a string over two lines with an invalid byte and an
unknown escape. -/
theorem tokenize_places_escape :
    let source : Bytes := [0xC3, 0xA9, 0x20, 0x22, 0xC3, 0x0A, 0x5C, 0x71]
    let t : Token := ⟨.blank, ascii " ", ⟨2, 0, 1⟩⟩
    let e : LexError := .unexpectedChar ⟨7, 1, 1⟩ 'q'
    (t ∈ (tokenize source).1 ∧ ∃ before l after,
      Text.IsCut source before (Lexeme.spelling l ++ after) ∧
      t = l.token (.ofOffset source before.length)) ∧
    e ∈ (tokenize source).2 ∧ ∃ before after, Text.IsCut source before after ∧
      e.pos = .ofOffset source before.length ∧ e.Marks before after := by
  intro source t e
  have ht : t ∈ (tokenize source).1 := by decide +kernel
  have he : e ∈ (tokenize source).2 := by decide +kernel
  obtain ⟨htokens, hfault⟩ := tokenize_places source
  exact ⟨⟨ht, htokens t ht⟩, he, hfault e he⟩

end MiniScheme
