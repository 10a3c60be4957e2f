import MiniScheme.Proofs.Token.Lexeme
import MiniScheme.Proofs.Token.Lexer

/-! The lexer on lexemes. It reads each maximal lexeme as its token and reports each flaw. -/
namespace MiniScheme

open Text (encode first? glyphs replacement)

namespace Token

theorem ne_of_class {p : Char → Bool} {c d : Char} (hc : p c) (hd : p d = false) : c ≠ d := by
  rintro rfl
  rw [hd] at hc
  cases hc

theorem isSpace_of_isInitial {c : Char} (h : isInitial c) : isSpace c = false := by
  simp only [isSpace, Bool.or_eq_false_iff, decide_eq_false_iff_not]
  exact ⟨⟨⟨ne_of_class h rfl, ne_of_class h rfl⟩, ne_of_class h rfl⟩, ne_of_class h rfl⟩

theorem isInitial_of_isDigit {c : Char} (h : Text.isDigit c) : isInitial c = false := by
  have hall : ∀ n < 10, isInitial (Char.ofNat (48 + n)) = false := by decide
  have hc : 48 ≤ c.toNat ∧ c.toNat ≤ 57 := by
    simpa [Text.isDigit, Char.le_def, UInt32.le_iff_toNat_le] using h
  have hn := hall (c.toNat - 48) (by omega)
  rwa [Nat.add_sub_cancel' hc.1, Char.ofNat_toNat] at hn

theorem isSpace_of_isDigit {c : Char} (h : Text.isDigit c) : isSpace c = false := by
  simp only [isSpace, Bool.or_eq_false_iff, decide_eq_false_iff_not]
  exact ⟨⟨⟨ne_of_class h rfl, ne_of_class h rfl⟩, ne_of_class h rfl⟩, ne_of_class h rfl⟩

theorem isDigit_of_isInitial {c : Char} (h : isInitial c) : Text.isDigit c = false := by
  refine Bool.eq_false_iff.2 fun hd => ?_
  rw [isInitial_of_isDigit hd] at h
  cases h

theorem eq_of_isSpace {c : Char} (h : isSpace c) : c = ' ' ∨ c = '\t' ∨ c = '\r' ∨ c = '\n' := by
  simpa [isSpace, or_assoc] using h

theorem isDigit_of_isSpace {c : Char} (h : isSpace c) : Text.isDigit c = false := by
  rcases eq_of_isSpace h with rfl | rfl | rfl | rfl <;> rfl

theorem isSubsequent_of_isSpace {c : Char} (h : isSpace c) : isSubsequent c = false := by
  rcases eq_of_isSpace h with rfl | rfl | rfl | rfl <;> rfl

end Token

namespace Cursor

def facing (pos : Position) (text : Bytes) : Cursor :=
  ⟨pos, glyphs text⟩

theorem emit_whole {text : Bytes} (h : Text.IsWhole text) (kind : Token.Kind) (pos : Position)
    (rest : Bytes) :
    (facing pos (text ++ rest)).emit kind (glyphs text) =
      .token ⟨kind, text, pos⟩ (facing (pos.past text) rest) := by
  simp only [emit, skip, facing, h rest, Text.spelling_glyphs, List.drop_left, Position.past]

theorem glyphs_word {p : Char → Bool} (w : Word p) :
    glyphs w.spelling = w.map fun c => ⟨c.1, encode c.1⟩ := by
  induction w with
  | nil => rfl
  | cons c w ih => rw [Word.spelling_cons, Text.glyphs_encode, ih, List.map_cons]

theorem run_word {p : Char → Bool} (w : Word p) (pos : Position) {rest : Bytes}
    (h : ∀ c ∈ first? rest, p c = false) :
    (facing pos (w.spelling ++ rest)).run p = glyphs w.spelling := by
  have hall : ∀ g ∈ glyphs w.spelling, p g.char := by
    rw [glyphs_word]
    intro g hg
    obtain ⟨c, -, rfl⟩ := List.mem_map.1 hg
    exact c.2
  have hstop : (glyphs rest).takeWhile (fun g => p g.char) = [] := by
    cases hg : glyphs rest with
    | nil => rfl
    | cons g gs =>
      have hfirst : first? rest = some g.char := by
        unfold first?
        rw [hg]
        rfl
      rw [List.takeWhile_cons, h _ hfirst]
      rfl
  simp only [run, facing, w.isWhole_spelling rest]
  rw [List.takeWhile_append_of_pos hall, hstop, List.append_nil]

section

variable (pos : Position)

def IsPlain (g : Text.Glyph) : Prop :=
  g.char ≠ '"' ∧ g.char ≠ '\\'

theorem readString_plain {gs : List Text.Glyph} (h : ∀ g ∈ gs, IsPlain g)
    (rest : List Text.Glyph) :
    readString pos (gs ++ rest) =
      (readString (pos.after gs) rest).map fun r => (gs.flatMap (encode ·.char) ++ r.1, r.2) := by
  induction gs generalizing pos with
  | nil =>
    change readString pos rest = (readString pos rest).map _
    cases readString pos rest <;> rfl
  | cons g gs ih =>
    obtain ⟨hq, hb⟩ := h g List.mem_cons_self
    have ih := ih (pos.step g) fun g hg => h g (List.mem_cons_of_mem _ hg)
    change _ = (readString ((pos.step g).after gs) rest).map _
    rw [List.cons_append, readString.eq_def]
    simp only [if_neg hq, if_neg hb, ih]
    cases readString ((pos.step g).after gs) rest with
    | error e => rfl
    | ok r => simp [Except.map, bind, Except.bind]

theorem readString_escape (e : Escape) (rest : Bytes) :
    readString pos (glyphs (encode '\\' ++ encode e.letter ++ rest)) =
      (readString (pos.past (encode '\\' ++ encode e.letter)) (glyphs rest)).map
        fun r => (e.byte :: r.1, r.2) := by
  have hpast : pos.past (encode '\\' ++ encode e.letter) =
      (pos.step ⟨'\\', encode '\\'⟩).step ⟨e.letter, encode e.letter⟩ := by
    rw [Position.past_encode, Position.past_char]
  rw [List.append_assoc, Text.glyphs_encode, Text.glyphs_encode, readString.eq_def, hpast]
  simp only [e.unescape?_letter, if_true]
  rw [if_neg (by decide)]
  cases readString (Position.step _ _) (glyphs rest) with
  | error e => rfl
  | ok r => rfl

theorem isPlain_of_mem_glyphs {raws : Bytes} (h : ∀ b ∈ raws, b ≠ 0x22 ∧ b ≠ 0x5C) :
    ∀ g ∈ glyphs raws, IsPlain g := by
  induction raws using Text.text_induction with
  | nil => simp
  | char c rest ih =>
    rw [Text.glyphs_encode, List.forall_mem_cons]
    refine ⟨⟨?_, ?_⟩, ih fun b hb => h b (List.mem_append_right _ hb)⟩
    · rintro rfl
      exact (h 0x22 (List.mem_append_left _ (by decide))).1 rfl
    · rintro rfl
      exact (h 0x5C (List.mem_append_left _ (by decide))).2 rfl
  | invalid b rest hinv ih =>
    rw [Text.glyphs_invalid hinv, List.forall_mem_cons]
    refine ⟨⟨?_, ?_⟩, ih fun b hb => h b (List.mem_cons_of_mem _ hb)⟩
    · exact show replacement ≠ '"' by decide
    · exact show replacement ≠ '\\' by decide

/-- The body of a string is read as its text. The bytes `raws` are those of the raw pieces read so
far, which may be part of an incomplete character. -/
theorem readString_pieces {raws : Bytes} (h : ∀ b ∈ raws, b ≠ 0x22 ∧ b ≠ 0x5C)
    (body : List Piece) {rest : Bytes} (hrest : Text.IsBoundary rest) :
    readString pos (glyphs (raws ++ (Piece.spellAll body ++ rest))) =
      (readString (pos.past (raws ++ Piece.spellAll body)) (glyphs rest)).map
        fun r => (Text.repair (raws ++ Piece.text body) ++ r.1, r.2) := by
  induction body generalizing pos raws with
  | nil =>
    have hplain := readString_plain pos (isPlain_of_mem_glyphs h) (glyphs rest)
    simpa [Piece.spellAll, Piece.text, Text.glyphs_append raws hrest, Text.repair_eq,
      Position.past] using hplain
  | cons piece body ih =>
    cases piece with
    | raw b =>
      have h' : ∀ b' ∈ raws ++ [b.1], b' ≠ 0x22 ∧ b' ≠ 0x5C := by
        intro b' hb'
        rcases List.mem_append.1 hb' with hb' | hb'
        · exact h b' hb'
        · rw [List.mem_singleton.1 hb']
          exact b.2
      have ih := ih pos h'
      simp only [List.append_assoc, List.singleton_append] at ih
      exact ih
    | escape e =>
      have hesc (rest : Bytes) : Text.IsBoundary (encode '\\' ++ encode e.letter ++ rest) := by
        rw [List.append_assoc]
        exact Text.isBoundary_encode _ _
      have hsource : raws ++ (Piece.spellAll (.escape e :: body) ++ rest) =
          raws ++ (encode '\\' ++ encode e.letter ++ (Piece.spellAll body ++ rest)) := by
        simp [Piece.spellAll, Piece.spelling]
      have hpast : pos.past (raws ++ Piece.spellAll (.escape e :: body)) =
          ((pos.past raws).past (encode '\\' ++ encode e.letter)).past (Piece.spellAll body) := by
        rw [← Position.past_whole _ (Text.isWhole_append_encode _ _),
          ← Position.past_append _ _ (hesc _)]
        rfl
      have htext : Text.repair (raws ++ Piece.text (.escape e :: body)) =
          Text.repair raws ++ e.byte :: Text.repair (Piece.text body) := by
        obtain ⟨c, hc⟩ := e.exists_encode_eq
        have hcons : Piece.text (.escape e :: body) = encode c ++ Piece.text body := by
          rw [hc]
          rfl
        rw [hcons, Text.repair_append _ (Text.isBoundary_encode _ _), Text.repair_encode, hc]
        rfl
      have ih := ih ((pos.past raws).past (encode '\\' ++ encode e.letter)) (List.forall_mem_nil _)
      rw [List.nil_append, List.nil_append, List.nil_append] at ih
      rw [hsource, Text.glyphs_append _ (hesc _), readString_plain pos (isPlain_of_mem_glyphs h),
        ← Position.past, readString_escape, ih, hpast, htext, ← Text.repair_eq]
      cases readString (((pos.past raws).past (encode '\\' ++ encode e.letter)).past
        (Piece.spellAll body)) (glyphs rest) with
      | error e => rfl
      | ok r => simp [Except.map]

theorem rest_facing_encode (c : Char) (rest : Bytes) :
    (facing pos (encode c ++ rest)).rest = ⟨c, encode c⟩ :: glyphs rest :=
  Text.glyphs_encode c rest

theorem next_opening (rest : Bytes) :
    (facing pos (encode '(' ++ rest)).next =
      .token ⟨.opening, encode '(', pos⟩ (facing (pos.past (encode '(')) rest) := by
  simp only [next, rest_facing_encode, if_true]
  rw [← Text.glyphs_encode_self, emit_whole (Text.isWhole_encode _)]

theorem next_closing (rest : Bytes) :
    (facing pos (encode ')' ++ rest)).next =
      .token ⟨.closing, encode ')', pos⟩ (facing (pos.past (encode ')')) rest) := by
  simp only [next, rest_facing_encode, if_true]
  rw [if_neg (by decide), ← Text.glyphs_encode_self, emit_whole (Text.isWhole_encode _)]

theorem next_hash (rest : Bytes) :
    (facing pos (encode '#' ++ rest)).next =
      match glyphs rest with
      | [] => .fault (.unexpectedEnd (pos.past (encode '#')))
      | t :: _ =>
        if t.char = 't' then
          (facing pos (encode '#' ++ rest)).emit (.boolean true) [⟨'#', encode '#'⟩, t]
        else if t.char = 'f' then
          (facing pos (encode '#' ++ rest)).emit (.boolean false) [⟨'#', encode '#'⟩, t]
        else .fault (.unexpectedChar (pos.past (encode '#')) t.char) := by
  simp only [next, rest_facing_encode, Position.past_char, if_true]
  rw [if_neg (by decide), if_neg (by decide)]
  rfl

theorem next_boolean (value : Bool) (rest : Bytes) :
    (facing pos ((Lexeme.boolean value).spelling ++ rest)).next =
      .token ⟨.boolean value, (Lexeme.boolean value).spelling, pos⟩
        (facing (pos.past (Lexeme.boolean value).spelling) rest) := by
  have hemit (c : Char) (kind : Token.Kind) :
      (facing pos (encode '#' ++ (encode c ++ rest))).emit kind
          [⟨'#', encode '#'⟩, ⟨c, encode c⟩] =
        .token ⟨kind, encode '#' ++ encode c, pos⟩
          (facing (pos.past (encode '#' ++ encode c)) rest) := by
    have h := emit_whole (Text.isWhole_append_encode (encode '#') c) kind pos rest
    rwa [Text.glyphs_encode, Text.glyphs_encode_self, List.append_assoc] at h
  cases value with
  | true =>
    rw [Lexeme.spelling, List.append_assoc, next_hash, Text.glyphs_encode]
    exact hemit 't' (.boolean true)
  | false =>
    rw [Lexeme.spelling, List.append_assoc, next_hash, Text.glyphs_encode]
    exact hemit 'f' (.boolean false)

theorem emit_run {p : Char → Bool} (w : Word p) (kind : Token.Kind) {rest : Bytes}
    (h : ∀ c ∈ first? rest, p c = false) :
    (facing pos (w.spelling ++ rest)).emit kind ((facing pos (w.spelling ++ rest)).run p) =
      .token ⟨kind, w.spelling, pos⟩ (facing (pos.past w.spelling) rest) := by
  rw [run_word w pos h, emit_whole w.isWhole_spelling]

theorem next_of_isSpace {c : Char} (hc : Token.isSpace c) (rest : Bytes) :
    (facing pos (encode c ++ rest)).next =
      (facing pos (encode c ++ rest)).emit .blank
        ((facing pos (encode c ++ rest)).run Token.isSpace) := by
  have hne (d : Char) (hd : Token.isSpace d = false) := Token.ne_of_class hc hd
  simp only [next, rest_facing_encode, if_neg (hne '(' rfl), if_neg (hne ')' rfl),
    if_neg (hne '#' rfl), if_neg (hne '"' rfl), if_pos hc]

theorem next_of_isInitial {c : Char} (hc : Token.isInitial c) (rest : Bytes) :
    (facing pos (encode c ++ rest)).next =
      (facing pos (encode c ++ rest)).emit .identifier
        ((facing pos (encode c ++ rest)).run Token.isSubsequent) := by
  have hne (d : Char) (hd : Token.isInitial d = false) := Token.ne_of_class hc hd
  simp only [next, rest_facing_encode, if_neg (hne '(' rfl), if_neg (hne ')' rfl),
    if_neg (hne '#' rfl), if_neg (hne '"' rfl), Token.isSpace_of_isInitial hc, if_pos hc,
    Bool.false_eq_true, if_false]

/-- A run of digits is read as the number it denotes, if that fits a word. -/
theorem next_of_isDigit {w : Word Text.isDigit} (hw : w ≠ []) {rest : Bytes}
    (h : ∀ d ∈ first? rest, Text.isDigit d = false) :
    (facing pos (w.spelling ++ rest)).next =
      if w.number < 2 ^ 64 then
        .token ⟨.integer w.number.toUInt64, w.spelling, pos⟩ (facing (pos.past w.spelling) rest)
      else .fault (.integerOverflow pos w.spelling) := by
  have hrun := run_word w pos h
  have hnumber : Text.ofDigits ((glyphs w.spelling).map (·.char)) = w.number := by
    rw [glyphs_word, List.map_map, Word.number_eq_ofDigits]
    rfl
  obtain ⟨c, w, rfl⟩ := List.exists_cons_of_ne_nil hw
  have hne (d : Char) (hd : Text.isDigit d = false) := Token.ne_of_class c.2 hd
  have hrest : (facing pos (Word.spelling (c :: w) ++ rest)).rest =
      ⟨c.1, encode c.1⟩ :: glyphs (Word.spelling w ++ rest) := by
    rw [Word.spelling_cons, List.append_assoc, rest_facing_encode]
  simp only [next, hrest, if_neg (hne '(' rfl), if_neg (hne ')' rfl), if_neg (hne '#' rfl),
    if_neg (hne '"' rfl), Token.isSpace_of_isDigit c.2, Token.isInitial_of_isDigit c.2, if_pos c.2,
    Bool.false_eq_true, if_false]
  rw [hrun, hnumber, emit_whole (Word.isWhole_spelling _), Text.spelling_glyphs]
  rfl

theorem next_quote (rest : Bytes) :
    (facing pos (encode '"' ++ rest)).next =
      match readString (pos.past (encode '"')) (glyphs rest) with
      | .error e => .fault e
      | .ok (text, next) => .token ⟨.string, text, pos⟩ next := by
  simp only [next, rest_facing_encode, Position.past_char, if_true]
  rw [if_neg (by decide), if_neg (by decide), if_neg (by decide)]
  rfl

theorem readString_body (body : List Piece) {rest : Bytes} (hrest : Text.IsBoundary rest) :
    readString (pos.past (encode '"')) (glyphs (Piece.spellAll body ++ rest)) =
      (readString (pos.past (Piece.opened body)) (glyphs rest)).map
        fun r => (Text.repair (Piece.text body) ++ r.1, r.2) := by
  have h := readString_pieces (pos.past (encode '"')) (List.forall_mem_nil _) body hrest
  rw [List.nil_append, List.nil_append, List.nil_append,
    ← Position.past_whole _ (Text.isWhole_encode _)] at h
  exact h

theorem next_string (body : List Piece) (rest : Bytes) :
    (facing pos ((Lexeme.string body).spelling ++ rest)).next =
      .token ⟨.string, Text.repair (Piece.text body), pos⟩
        (facing (pos.past (Lexeme.string body).spelling) rest) := by
  have hend (p : Position) : readString p (glyphs (encode '"' ++ rest)) =
      .ok ([], facing (p.past (encode '"')) rest) := by
    rw [Text.glyphs_encode, readString.eq_def, Position.past_char]
    exact if_pos rfl
  have hsource : (Lexeme.string body).spelling ++ rest =
      encode '"' ++ (Piece.spellAll body ++ (encode '"' ++ rest)) := by
    simp [Lexeme.spelling, Piece.opened]
  have hpast : (pos.past (Piece.opened body)).past (encode '"') =
      pos.past (Lexeme.string body).spelling := by
    exact (Position.past_append pos _ (Text.isBoundary_encode_self '"')).symm
  rw [hsource, next_quote, readString_body pos body (Text.isBoundary_encode _ _), hend, hpast]
  simp [Except.map]

/-- A maximal lexeme is read as its token. -/
theorem next_lexeme (l : Lexeme) {rest : Bytes} (h : l.StopsAt rest) :
    (facing pos (l.spelling ++ rest)).next =
      .token ⟨l.kind, l.literal, pos⟩ (facing (pos.past l.spelling) rest) := by
  cases l with
  | opening => exact next_opening pos rest
  | closing => exact next_closing pos rest
  | boolean value => exact next_boolean pos value rest
  | blank c w =>
    have hn := next_of_isSpace pos c.2 (w.spelling ++ rest)
    rw [← List.append_assoc] at hn
    exact hn.trans (emit_run pos (c :: w) .blank h)
  | identifier c w =>
    have hn := next_of_isInitial pos c.2 (w.spelling ++ rest)
    let c' : {c : Char // Token.isSubsequent c} := ⟨c.1, isSubsequent_of_isInitial c.2⟩
    rw [← List.append_assoc] at hn
    exact hn.trans (emit_run pos (c' :: w) .identifier h)
  | integer c w fits =>
    have hn := next_of_isDigit pos (List.cons_ne_nil c w) h
    rw [if_pos fits] at hn
    have hvalue : (Word.number (c :: w)).toUInt64 = .ofNatLT _ fits := by
      rw [UInt64.ofNatLT_eq_ofNat]
    rw [hvalue] at hn
    exact hn
  | string body => exact next_string pos body rest

theorem exists_glyphs_of_first? {text : Bytes} {c : Char} (h : first? text = some c) :
    ∃ g gs, glyphs text = g :: gs ∧ g.char = c := by
  cases hg : glyphs text with
  | nil =>
    unfold first? at h
    rw [hg] at h
    cases h
  | cons g gs =>
    unfold first? at h
    rw [hg] at h
    exact ⟨g, gs, rfl, Option.some.inj h⟩

theorem next_stray {text : Bytes} {c : Char} (hc : first? text = some c)
    (hs : Token.starts c = false) : (facing pos text).next = .fault (.unexpectedChar pos c) := by
  obtain ⟨g, gs, hg, rfl⟩ := exists_glyphs_of_first? hc
  have hrest : (facing pos text).rest = g :: gs := hg
  simp only [Token.starts, Bool.or_eq_false_iff, decide_eq_false_iff_not] at hs
  obtain ⟨⟨⟨⟨⟨⟨ho, hc⟩, hh⟩, hq⟩, hspace⟩, hinitial⟩, hdigit⟩ := hs
  simp only [next, hrest, if_neg ho, if_neg hc, if_neg hh, if_neg hq, hspace, hinitial, hdigit,
    Bool.false_eq_true, if_false]
  rfl

/-- A flaw is reported as a lexical error. -/
theorem next_flaw {text : Bytes} {e : LexError} (h : Flaw pos text e) :
    (facing pos text).next = .fault e := by
  cases h with
  | stray hc hs => exact next_stray pos hc hs
  | loneHash =>
    have h := next_hash pos []
    rwa [List.append_nil] at h
  | @notBoolean rest c hc ht hf =>
    obtain ⟨g, gs, hg, rfl⟩ := exists_glyphs_of_first? hc
    rw [next_hash, hg]
    simp only [if_neg ht, if_neg hf]
  | unclosed body =>
    have hb := readString_body pos body Text.isBoundary_nil
    rw [List.append_nil] at hb
    rw [Piece.opened, next_quote, hb]
    rfl
  | cutEscape body =>
    have hend (p : Position) : readString p (glyphs (encode '\\')) =
        .error (.unexpectedEnd (p.past (encode '\\'))) := by
      rw [Text.glyphs_encode_self, readString.eq_def, Position.past_char]
      rfl
    have hboundary := Text.isBoundary_encode_self '\\'
    have hb := readString_body pos body hboundary
    rw [hend, ← Position.past_append _ _ hboundary] at hb
    rw [Piece.opened, List.append_assoc, next_quote, hb]
    simp [Except.map, Piece.opened]
  | @badEscape body rest c hc he =>
    obtain ⟨g, gs, hg, rfl⟩ := exists_glyphs_of_first? hc
    have hend (p : Position) : readString p (glyphs (encode '\\' ++ rest)) =
        .error (.unexpectedChar (p.past (encode '\\')) g.char) := by
      rw [Text.glyphs_encode, hg, readString.eq_def, Position.past_char]
      simp only [Escape.unescape?_eq_none he]
      rfl
    have hboundary := Text.isBoundary_encode_self '\\'
    have hb := readString_body pos body (Text.isBoundary_encode '\\' rest)
    rw [hend, ← Position.past_append _ _ hboundary] at hb
    rw [Piece.opened, List.append_assoc, List.append_assoc, next_quote, hb]
    simp [Except.map, Piece.opened]
  | @overflow w rest hw hrest =>
    have hne : w ≠ [] := by
      rintro rfl
      revert hw
      decide
    rw [next_of_isDigit pos hne hrest, if_neg (Nat.not_lt.2 hw)]

end

end Cursor

end MiniScheme
