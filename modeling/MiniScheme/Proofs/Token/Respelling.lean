import MiniScheme.Proofs.Token.Legible
import MiniScheme.Proofs.Token.Places

/-! Token texts as sources. A blank shrinks to one space and a string is quoted anew; every other
token is spelt as before, so adjacent tokens stay separate. -/
namespace MiniScheme

open Text (encode first?)

namespace Token

/-- Whether the text of the token can be lexed again. -/
def isLegible (t : Token) : Bool :=
  t.kind ≠ .string || Text.isLegibleText t.literal

/-- The content of the token that the text lexes to. -/
def respelt (t : Token) : Kind × Bytes :=
  (t.kind, if t.kind = .blank then ascii " " else t.literal)

theorem text_eq_of_said {t u : Token} (h : u.said = t.respelt) : u.text = t.text := by
  obtain ⟨hkind, hliteral⟩ := Prod.mk.inj h
  unfold text
  rw [hkind]
  by_cases hb : t.kind = .blank
  · simp only [hb]
  · rw [if_neg hb] at hliteral
    rw [hliteral]

theorem flatMap_text_eq_of_said {ts us : List Token} (h : us.map said = ts.map respelt) :
    us.flatMap text = ts.flatMap text := by
  induction ts generalizing us with
  | nil => rw [List.map_eq_nil_iff.1 h]
  | cons t ts ih =>
    obtain ⟨u, us, rfl, hu, hus⟩ := List.map_eq_cons_iff.1 h
    rw [List.flatMap_cons, List.flatMap_cons, text_eq_of_said hu, ih hus]

end Token

namespace Lexeme

/-- A lexeme is respelt by one of the same kind, which the same characters would extend. -/
theorem exists_respelt (l : Lexeme) (pos : Position) (h : (l.token pos).isLegible) :
    ∃ m : Lexeme, m.spelling = (l.token pos).text ∧
      (m.kind, m.literal) = (l.token pos).respelt ∧ m.prolongs = l.prolongs := by
  cases l with
  | opening => exact ⟨.opening, rfl, rfl, rfl⟩
  | closing => exact ⟨.closing, rfl, rfl, rfl⟩
  | boolean value => exact ⟨.boolean value, by cases value <;> rfl, rfl, rfl⟩
  | blank => exact ⟨.blank ⟨' ', rfl⟩ [], rfl, rfl, rfl⟩
  | identifier c w => exact ⟨.identifier c w, rfl, rfl, rfl⟩
  | integer c w fits => exact ⟨.integer c w fits, rfl, rfl, rfl⟩
  | string body =>
    obtain ⟨cs, hcs⟩ := exists_chars body
    have hlegible : ∀ c ∈ cs, Text.isLegible c := by
      have htext : Text.isLegibleText (string body).literal = true := h
      rwa [hcs, Text.isLegibleText_flatMap_encode, List.all_eq_true] at htext
    obtain ⟨body', hspelling, hliteral⟩ := exists_string_of_legible hlegible
    refine ⟨.string body', ?_, ?_, rfl⟩
    · rw [hspelling, ← hcs]
      rfl
    · rw [hliteral, ← hcs]
      rfl

/-- The text of a token other than a blank has the first character of its lexeme. -/
theorem first?_text (m : Lexeme) (pos : Position) (rest : Bytes) :
    first? ((m.token pos).text ++ rest) = some (if m.kind = .blank then ' ' else m.first) := by
  cases m with
  | boolean value => cases value <;> exact Text.first?_encode '#' _
  | opening => exact Text.first?_encode '(' rest
  | closing => exact Text.first?_encode ')' rest
  | blank => exact Text.first?_encode ' ' rest
  | identifier c w => exact first?_spelling (.identifier c w) rest
  | integer c w fits => exact first?_spelling (.integer c w fits) rest
  | string body => exact Text.first?_encode '"' _

/-- A lexeme stays maximal when the next one is replaced by the text of its token. -/
theorem StopsAt.text {l m : Lexeme} {rest : Bytes} (h : l.StopsAt (m.spelling ++ rest))
    (pos : Position) (rest' : Bytes) : l.StopsAt ((m.token pos).text ++ rest') := by
  have hm : l.prolongs m.first = false := h m.first (by rw [m.first?_spelling]; rfl)
  intro c hc
  rw [first?_text] at hc
  cases hc
  by_cases hb : m.kind = .blank
  · rw [if_pos hb]
    cases l with
    | opening | closing | boolean | string | identifier | integer => rfl
    | blank =>
      cases m with
      | blank c => exact absurd c.2 (Bool.eq_false_iff.1 hm)
      | opening | closing | boolean | identifier | integer | string => cases hb
  · rw [if_neg hb]
    exact hm

end Lexeme

namespace Cursor

variable {pos pos' : Position} {text rest more : Bytes} {ts : List Token}

/-- Legible tokens of a scan are scanned again from their texts. -/
theorem Scans.exists_respelt (h : Scans pos text ts pos' rest) (hl : ∀ t ∈ ts, t.isLegible)
    (hmore : ∀ c ∈ first? more, c ∈ first? rest) (q : Position) :
    ∃ us q', Scans q (ts.flatMap Token.text ++ more) us q' more ∧
      us.map Token.said = ts.map Token.respelt := by
  induction h generalizing q with
  | done => exact ⟨[], q, .done, rfl⟩
  | @token pos pos' l text rest ts hstop hs ih =>
    obtain ⟨hlegible, hl⟩ := List.forall_mem_cons.1 hl
    obtain ⟨m, hspelling, hsaid, hprolongs⟩ := l.exists_respelt pos hlegible
    have hstop' : l.StopsAt (ts.flatMap Token.text ++ more) := by
      cases hs with
      | done => exact fun c hc => hstop c (hmore c hc)
      | @token _ _ next text _ ts _ _ =>
        rw [List.flatMap_cons, List.append_assoc]
        exact hstop.text _ _
    obtain ⟨us, q', hs', hus⟩ := ih hl hmore (q.past m.spelling)
    refine ⟨m.token q :: us, q', ?_, ?_⟩
    · rw [List.flatMap_cons, List.append_assoc, ← hspelling]
      refine .token ?_ hs'
      intro c hc
      rw [hprolongs]
      exact hstop' c hc
    · rw [List.map_cons, List.map_cons, hus, ← hsaid]
      rfl

/-- The lexer stops in the text of the first illegible token. -/
theorem Scans.exists_stop (h : Scans pos text ts pos' rest) (hl : ts.all Token.isLegible = false)
    (q : Position) :
    ∃ us q' rest' place letter, Scans q (ts.flatMap Token.text) us q' rest' ∧
      Flaw q' rest' (.unexpectedChar place letter) ∧ ∀ e : Escape, e.letter ≠ letter := by
  have hfind : (ts.find? fun t => !t.isLegible).isSome := by
    rw [List.find?_isSome]
    simpa using hl
  obtain ⟨t, ht⟩ := Option.isSome_iff_exists.1 hfind
  obtain ⟨hdark, us, vs, rfl, hus⟩ := List.find?_eq_some_iff_append.1 ht
  obtain ⟨place, l, after, hbefore, rfl⟩ := h.exists_at
  cases l with
  | opening | closing | boolean | blank | identifier | integer => cases hdark
  | string body =>
    obtain ⟨cs, hcs⟩ := Lexeme.exists_chars body
    have hillegible : ∃ c ∈ cs, Text.isLegible c = false := by
      have htext : (!Text.isLegibleText (Lexeme.string body).literal) = true := hdark
      rw [hcs, Text.isLegibleText_flatMap_encode] at htext
      simpa using htext
    obtain ⟨pieces, letter, tail, hquote, hletter⟩ := Piece.exists_opened_of_illegible hillegible
    have hlegible : ∀ u ∈ us, u.isLegible := by
      intro u hu
      simpa using hus u hu
    have hmore : ∀ c ∈ first? (((Lexeme.string body).token place).text ++ vs.flatMap Token.text),
        c ∈ first? ((Lexeme.string body).spelling ++ after) := by
      rw [Lexeme.first?_text, Lexeme.first?_spelling]
      exact fun c hc => hc
    obtain ⟨ws, q', hs, -⟩ := hbefore.exists_respelt hlegible hmore q
    have htext : ((Lexeme.string body).token place).text ++ vs.flatMap Token.text =
        Piece.opened pieces ++ encode '\\' ++
          (encode letter ++ (tail ++ vs.flatMap Token.text)) := by
      have hself : ((Lexeme.string body).token place).text =
          Text.quote (Lexeme.string body).literal := rfl
      rw [hself, hcs, hquote]
      simp only [List.append_assoc]
    have hfirst := Text.first?_encode letter (tail ++ vs.flatMap Token.text)
    have hflaw := @Flaw.badEscape q' pieces _ letter hfirst hletter
    rw [← htext] at hflaw
    rw [List.flatMap_append, List.flatMap_cons]
    exact ⟨ws, q', _, _, letter, hs, hflaw, hletter⟩

end Cursor

/-- The concatenated texts of the tokens of a source lex to the same tokens, with blanks of one
space, and the texts of these are the same again. The exception is a string with a character that
its quotation escapes and literals cannot: there the lexer stops at the escape. -/
theorem tokenize_text {source : Bytes} {ts : List Token} (h : tokenize source = (ts, none)) :
    let text := ts.flatMap Token.text
    if ts.all Token.isLegible then
      ∃ us, tokenize text = (us, none) ∧ us.map Token.said = ts.map Token.respelt ∧
        us.flatMap Token.text = text
    else
      ∃ us pos letter, tokenize text = (us, some (.unexpectedChar pos letter)) ∧
        ∀ e : Escape, e.letter ≠ letter := by
  obtain ⟨pos, rest, hs, hf⟩ := tokenize_eq_iff.1 h
  cases hf with
  | finished =>
    intro text
    split
    · rename_i hl
      have hnil : ∀ c ∈ first? [], c ∈ first? [] := fun c hc => hc
      obtain ⟨us, q, hus, hsaid⟩ := hs.exists_respelt (List.all_eq_true.1 hl) hnil {}
      rw [List.append_nil] at hus
      have htokens : tokenize text = (us, none) := tokenize_eq_iff.2 ⟨q, [], hus, .finished⟩
      exact ⟨us, htokens, hsaid, Token.flatMap_text_eq_of_said hsaid⟩
    · rename_i hl
      obtain ⟨us, q, rest, place, letter, hus, hflaw, hletter⟩ :=
        hs.exists_stop (Bool.eq_false_iff.2 hl) {}
      exact ⟨us, place, letter, tokenize_eq_iff.2 ⟨q, rest, hus, .flaw hflaw⟩, hletter⟩

/-- Adjacent tokens, blanks of several characters and a string with escapes; and a string with a
bell after other tokens. -/
theorem tokenize_text_touching :
    (let source := ascii "7a\"\\t\\\"\n\"\t\n#t(#f "
     let text := ascii "7a\"\\t\\\"\\n\" #t(#f "
     ∃ ts us, tokenize source = (ts, none) ∧ ts.flatMap Token.text = text ∧
       tokenize text = (us, none) ∧ us.map Token.said = ts.map Token.respelt) ∧
    let source := ascii "x  \"\x07\")"
    let text := ascii "x \"\\a\")"
    ∃ ts us pos letter, tokenize source = (ts, none) ∧ ts.flatMap Token.text = text ∧
      tokenize text = (us, some (.unexpectedChar pos letter)) := by
  constructor
  · intro source text
    have hsource : ∃ ts, tokenize source = (ts, none) ∧ ts.flatMap Token.text = text ∧
        ts.all Token.isLegible = true :=
      ⟨(tokenize source).1, by decide +kernel, by decide +kernel, by decide +kernel⟩
    obtain ⟨ts, hts, htext, hlegible⟩ := hsource
    have h := tokenize_text hts
    rw [htext, if_pos hlegible] at h
    obtain ⟨us, hus, hsaid, -⟩ := h
    exact ⟨ts, us, hts, htext, hus, hsaid⟩
  · intro source text
    have hsource : ∃ ts, tokenize source = (ts, none) ∧ ts.flatMap Token.text = text ∧
        ¬ ts.all Token.isLegible = true :=
      ⟨(tokenize source).1, by decide +kernel, by decide +kernel, by decide +kernel⟩
    obtain ⟨ts, hts, htext, hlegible⟩ := hsource
    have h := tokenize_text hts
    rw [htext, if_neg hlegible] at h
    obtain ⟨us, pos, letter, hus, -⟩ := h
    exact ⟨ts, us, pos, letter, hts, htext, hus⟩

end MiniScheme
