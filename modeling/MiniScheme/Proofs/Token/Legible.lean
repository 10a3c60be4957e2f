import MiniScheme.Proofs.Text.Quoted
import MiniScheme.Proofs.Token.Numeral
import MiniScheme.Proofs.Token.Tiling

/-! Quotations as string literals. A quotation escapes every unprintable character, but literals
have escapes for three of them only; the lexer stops at any other. -/
namespace MiniScheme

open Text (encode escapeChar first? glyphs isPrintable quote)

/-- Quotations and string literals have a common form for the character. -/
def Text.isLegible (c : Char) : Bool :=
  isPrintable c || c = '\n' || c = '\r' || c = '\t'

def Text.isLegibleText (text : Bytes) : Bool :=
  (glyphs text).all fun g => isLegible g.char

/-- `Token.Denotes source text`: the source is one string literal, which denotes `text`. -/
def Token.Denotes (source text : Bytes) : Prop :=
  ∃ pos, tokenize source = ([⟨.string, text, pos⟩], none)

section

variable {c : Char} {cs : List Char}

theorem Piece.exists_raw {bytes : Bytes} (h : ∀ b ∈ bytes, b ≠ 0x22 ∧ b ≠ 0x5C) :
    ∃ body, spellAll body = bytes ∧ text body = bytes := by
  induction bytes with
  | nil => exact ⟨[], rfl, rfl⟩
  | cons b bytes ih =>
    obtain ⟨hb, hbytes⟩ := List.forall_mem_cons.1 h
    obtain ⟨body, hspelling, htext⟩ := ih hbytes
    refine ⟨.raw ⟨b, hb⟩ :: body, ?_, ?_⟩
    · exact congrArg (b :: ·) hspelling
    · exact congrArg (b :: ·) htext

theorem Piece.exists_legible (h : Text.isLegible c) :
    ∃ body, spellAll body = escapeChar '"' c ∧ text body = encode c := by
  by_cases hmark : c = '"' ∨ c = '\\'
  · rcases hmark with rfl | rfl
    · exact ⟨[.escape .quote], rfl, rfl⟩
    · exact ⟨[.escape .backslash], rfl, rfl⟩
  by_cases hprint : isPrintable c = true
  · have hself : escapeChar '"' c = encode c := by
      unfold escapeChar
      rw [if_neg hmark, if_pos hprint]
    rw [hself]
    apply exists_raw
    intro b hb
    constructor
    · rintro rfl
      exact hmark (.inl (Text.eq_ofNat_of_mem_encode (by decide) hb))
    · rintro rfl
      exact hmark (.inr (Text.eq_ofNat_of_mem_encode (by decide) hb))
  · simp only [Text.isLegible, Bool.or_eq_true, hprint, decide_eq_true_eq, Bool.false_eq_true,
      false_or] at h
    rcases h with (rfl | rfl) | rfl
    · exact ⟨[.escape .newline], by decide +kernel, rfl⟩
    · exact ⟨[.escape .carriageReturn], by decide +kernel, rfl⟩
    · exact ⟨[.escape .tab], by decide +kernel, rfl⟩

/-- Any other character is quoted by an escape that literals lack. -/
theorem Text.exists_escape_of_illegible (h : isLegible c = false) :
    ∃ letter rest, escapeChar '"' c = encode '\\' ++ (encode letter ++ rest) ∧
      ∀ e : Escape, e.letter ≠ letter := by
  have hletters (letter : Char) (hletter : letter ∈ ['a', 'b', 'v', 'f', 'x', 'u', 'U'])
      (e : Escape) : e.letter ≠ letter := by
    have hmem : e.letter ∉ ['a', 'b', 'v', 'f', 'x', 'u', 'U'] := by cases e <;> decide
    rintro rfl
    exact hmem hletter
  have hmark : ¬(c = '"' ∨ c = '\\') := by
    rintro (rfl | rfl)
    · exact absurd h (by decide +kernel)
    · exact absurd h (by decide +kernel)
  simp only [isLegible, Bool.or_eq_false_iff, decide_eq_false_iff_not] at h
  obtain ⟨⟨⟨hprint, hn⟩, hr⟩, ht⟩ := h
  unfold escapeChar
  rw [if_neg hmark, hprint, if_neg Bool.false_ne_true]
  have hne {n : Nat} (hc : c.toNat = n) : c = Char.ofNat n := by rw [← hc, Char.ofNat_toNat]
  cases hshort : shortEscape? c with
  | some letter =>
    refine ⟨letter, [], by rw [List.append_nil]; rfl, hletters letter ?_⟩
    unfold shortEscape? at hshort
    split at hshort
    · cases hshort; decide
    · cases hshort; decide
    · exact absurd (hne ‹_›) ht
    · exact absurd (hne ‹_›) hn
    · cases hshort; decide
    · cases hshort; decide
    · exact absurd (hne ‹_›) hr
    · cases hshort
  | none =>
    dsimp only
    unfold numericEscape
    split_ifs
    · exact ⟨'x', _, rfl, hletters 'x' (by decide)⟩
    · exact ⟨'u', _, rfl, hletters 'u' (by decide)⟩
    · exact ⟨'U', _, rfl, hletters 'U' (by decide)⟩

theorem Piece.exists_body_of_legible (h : ∀ c ∈ cs, Text.isLegible c) :
    ∃ body, spellAll body = cs.flatMap (escapeChar '"') ∧ text body = cs.flatMap encode := by
  induction cs with
  | nil => exact ⟨[], rfl, rfl⟩
  | cons c cs ih =>
    obtain ⟨hc, hcs⟩ := List.forall_mem_cons.1 h
    obtain ⟨front, hfront, hc'⟩ := exists_legible hc
    obtain ⟨body, hbody, hcs'⟩ := ih hcs
    refine ⟨front ++ body, ?_, ?_⟩
    · rw [List.flatMap_cons, ← hfront, ← hbody]
      exact List.flatMap_append
    · rw [List.flatMap_cons, ← hc', ← hcs']
      exact List.map_append

/-- Up to its first illegible character, a quotation is the body of a literal. -/
theorem Piece.exists_stop_of_illegible (h : ∃ c ∈ cs, Text.isLegible c = false) :
    ∃ body letter rest,
      cs.flatMap (escapeChar '"') = spellAll body ++ (encode '\\' ++ (encode letter ++ rest)) ∧
      ∀ e : Escape, e.letter ≠ letter := by
  induction cs with
  | nil =>
    obtain ⟨c, hc, -⟩ := h
    cases hc
  | cons c cs ih =>
    rw [List.flatMap_cons]
    by_cases hc : Text.isLegible c = true
    · have hcs : ∃ c ∈ cs, Text.isLegible c = false := by
        obtain ⟨d, hd, hdark⟩ := h
        rcases List.mem_cons.1 hd with rfl | hd
        · rw [hc] at hdark
          cases hdark
        · exact ⟨d, hd, hdark⟩
      obtain ⟨front, hfront, -⟩ := exists_legible hc
      obtain ⟨body, letter, rest, hbody, hletter⟩ := ih hcs
      refine ⟨front ++ body, letter, rest, ?_, hletter⟩
      rw [hbody, ← hfront, ← List.append_assoc]
      exact congrArg (· ++ _) List.flatMap_append.symm
    · obtain ⟨letter, rest, hescape, hletter⟩ :=
        Text.exists_escape_of_illegible (Bool.eq_false_iff.2 hc)
      refine ⟨[], letter, rest ++ cs.flatMap (escapeChar '"'), ?_, hletter⟩
      rw [hescape]
      simp only [List.append_assoc]
      rfl

theorem Text.glyphs_flatMap_encode (cs : List Char) :
    glyphs (cs.flatMap encode) = cs.map fun c => ⟨c, encode c⟩ := by
  induction cs with
  | nil => rfl
  | cons c cs ih => rw [List.flatMap_cons, glyphs_encode, ih, List.map_cons]

theorem Text.repair_flatMap_encode (cs : List Char) :
    repair (cs.flatMap encode) = cs.flatMap encode := by
  rw [repair_eq, glyphs_flatMap_encode, List.flatMap_map]

theorem Text.quote_flatMap_encode (cs : List Char) :
    quote (cs.flatMap encode) = encode '"' ++ (cs.flatMap (escapeChar '"') ++ encode '"') := by
  unfold quote
  rw [glyphs_flatMap_encode, List.flatMap_map]
  simp only [escapeGlyph_encode]
  rfl

/-- The quotation of a legible text is a literal. -/
theorem Lexeme.exists_string_of_legible (h : ∀ c ∈ cs, Text.isLegible c) :
    ∃ body, (string body).spelling = quote (cs.flatMap encode) ∧
      (string body).literal = cs.flatMap encode := by
  obtain ⟨body, hspelling, htext⟩ := Piece.exists_body_of_legible h
  refine ⟨body, ?_, ?_⟩
  · rw [Text.quote_flatMap_encode, ← hspelling]
    exact List.append_assoc ..
  · rw [literal, htext, Text.repair_flatMap_encode]

theorem Piece.exists_opened_of_illegible (h : ∃ c ∈ cs, Text.isLegible c = false) :
    ∃ body letter rest, quote (cs.flatMap encode) =
        opened body ++ encode '\\' ++ (encode letter ++ rest) ∧
      ∀ e : Escape, e.letter ≠ letter := by
  obtain ⟨body, letter, rest, hspelling, hletter⟩ := exists_stop_of_illegible h
  refine ⟨body, letter, rest ++ encode '"', ?_, hletter⟩
  rw [Text.quote_flatMap_encode, hspelling]
  simp only [opened, List.append_assoc]

theorem Text.isLegibleText_flatMap_encode (cs : List Char) :
    isLegibleText (cs.flatMap encode) = cs.all isLegible := by
  unfold isLegibleText
  rw [glyphs_flatMap_encode, List.all_map]
  rfl

/-- A literal denotes a sequence of characters. -/
theorem Lexeme.exists_chars (body : List Piece) :
    ∃ cs : List Char, (string body).literal = cs.flatMap encode := by
  refine ⟨(glyphs (Piece.text body)).map (·.char), ?_⟩
  rw [List.flatMap_map]
  exact Text.repair_eq _

theorem Token.Denotes.exists_chars {source text : Bytes} (h : Denotes source text) :
    ∃ cs : List Char, text = cs.flatMap encode := by
  obtain ⟨pos, htokens⟩ := h
  obtain ⟨pos', rest, hscans, -⟩ := tokenize_eq_iff.1 htokens
  generalize hts : [(⟨.string, text, pos⟩ : Token)] = ts at hscans
  cases hscans with
  | done => cases hts
  | @token pos pos' l =>
    obtain ⟨htoken, -⟩ := List.cons.inj hts
    have hkind : l.kind = .string := (congrArg Token.kind htoken).symm
    have hliteral : l.literal = text := (congrArg Token.literal htoken).symm
    cases l with
    | string body =>
      rw [← hliteral]
      exact Lexeme.exists_chars body
    | opening | closing | boolean | blank | identifier | integer => cases hkind

end

/-- A legible text is read back from its quotation. -/
theorem tokenize_quote_of_legible {source text : Bytes} (h : Token.Denotes source text)
    (hl : Text.isLegibleText text) : tokenize (quote text) = ([⟨.string, text, {}⟩], none) := by
  obtain ⟨cs, rfl⟩ := h.exists_chars
  rw [Text.isLegibleText_flatMap_encode, List.all_eq_true] at hl
  obtain ⟨body, hspelling, hliteral⟩ := Lexeme.exists_string_of_legible hl
  have htokens := tokenize_lexeme (.string body)
  rw [List.append_nil, hspelling, Lexeme.token, hliteral] at htokens
  exact htokens

/-- On the quotation of any other text the lexer stops at the first escape that literals lack. -/
theorem tokenize_quote_of_illegible {source text : Bytes} (h : Token.Denotes source text)
    (hl : Text.isLegibleText text = false) :
    ∃ pos letter, tokenize (quote text) = ([], some (.unexpectedChar pos letter)) ∧
      ∀ e : Escape, e.letter ≠ letter := by
  obtain ⟨cs, rfl⟩ := h.exists_chars
  have hcs : ∃ c ∈ cs, Text.isLegible c = false := by
    rw [Text.isLegibleText_flatMap_encode] at hl
    simpa using hl
  obtain ⟨body, letter, rest, hsource, hletter⟩ := Piece.exists_opened_of_illegible hcs
  have hflaw := @Flaw.badEscape {} body _ letter (Text.first?_encode letter rest) hletter
  rw [hsource]
  exact ⟨_, letter, tokenize_eq_iff.2 ⟨_, _, .done, .flaw hflaw⟩, hletter⟩

end MiniScheme
