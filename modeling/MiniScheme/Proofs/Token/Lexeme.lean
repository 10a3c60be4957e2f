import Mathlib.Data.Nat.Digits.Defs
import MiniScheme.Proofs.Position
import MiniScheme.Token.Lexer

/-! Lexemes: the spelling of tokens, defined independently of the lexer. Every nonempty text starts
with a maximal lexeme or with a flaw. -/
namespace MiniScheme

open Text (encode first? replacement)

/-- A sequence of characters of the class `p`. -/
abbrev Word (p : Char → Bool) := List {c : Char // p c}

namespace Word

variable {p : Char → Bool}

def spelling (w : Word p) : Bytes :=
  w.flatMap fun c => encode c.1

def number (w : Word Text.isDigit) : Nat :=
  Nat.ofDigits 10 (w.reverse.map fun c => c.1.toNat - '0'.toNat)

@[simp] theorem spelling_nil : spelling ([] : Word p) = [] := rfl

@[simp] theorem spelling_cons (c : {c : Char // p c}) (w : Word p) :
    spelling (c :: w) = encode c.1 ++ spelling w := rfl

theorem spelling_append (v w : Word p) : spelling (v ++ w) = spelling v ++ spelling w :=
  List.flatMap_append

theorem isWhole_spelling (w : Word p) : Text.IsWhole w.spelling := by
  induction w with
  | nil => exact Text.isWhole_nil
  | cons c w ih => exact (Text.isWhole_encode c.1).append ih

/-- Spelling is injective where the text after the word does not extend it. -/
theorem spelling_append_inj {v w : Word p} {s t : Bytes} (hs : ∀ c ∈ first? s, p c = false)
    (ht : ∀ c ∈ first? t, p c = false) (h : v.spelling ++ s = w.spelling ++ t) :
    v = w ∧ s = t := by
  have hstop {c : {c : Char // p c}} {u rest : Bytes} (hu : ∀ c ∈ first? u, p c = false)
      (heq : u = encode c.1 ++ rest) : False := by
    have hc := hu c.1 (by rw [heq, Text.first?_encode]; rfl)
    exact absurd c.2 (by rw [hc]; decide)
  induction v generalizing w with
  | nil =>
    cases w with
    | nil => exact ⟨rfl, h⟩
    | cons c w =>
      rw [spelling_cons, List.append_assoc] at h
      exact (hstop hs h).elim
  | cons c v ih =>
    cases w with
    | nil =>
      rw [spelling_cons, List.append_assoc] at h
      exact (hstop ht h.symm).elim
    | cons d w =>
      rw [spelling_cons, spelling_cons, List.append_assoc, List.append_assoc] at h
      obtain ⟨hcd, hrest⟩ := Text.encode_append_inj h
      obtain ⟨rfl, hst⟩ := ih hrest
      exact ⟨by rw [Subtype.ext hcd], hst⟩

theorem number_eq_ofDigits (w : Word Text.isDigit) :
    w.number = Text.ofDigits (w.map fun c => c.1) := by
  unfold number Text.ofDigits
  rw [Nat.ofDigits_eq_foldr, List.map_reverse, List.foldr_reverse, List.foldl_map, List.foldl_map]
  simp only [Nat.cast_id, Nat.add_comm]

/-- The longest word that is a prefix of a text. -/
theorem exists_longest (hp : p replacement = false) (text : Bytes) :
    ∃ (w : Word p) (rest : Bytes), text = w.spelling ++ rest ∧ ∀ c ∈ first? rest, p c = false := by
  induction text using Text.text_induction with
  | nil =>
    refine ⟨[], [], rfl, ?_⟩
    intro c hc
    cases hc
  | char c rest ih =>
    by_cases hc : p c = true
    · obtain ⟨w, rest, rfl, hrest⟩ := ih
      exact ⟨⟨c, hc⟩ :: w, rest, by simp, hrest⟩
    · refine ⟨[], encode c ++ rest, rfl, ?_⟩
      rw [Text.first?_encode]
      intro d hd
      cases hd
      exact Bool.eq_false_iff.2 hc
  | invalid b rest hinv =>
    refine ⟨[], b :: rest, rfl, ?_⟩
    rw [Text.first?_invalid hinv]
    intro d hd
    cases hd
    exact hp

end Word

inductive Escape where
  | quote
  | backslash
  | newline
  | carriageReturn
  | tab
deriving DecidableEq, Repr

namespace Escape

def letter : Escape → Char
  | quote => '"'
  | backslash => '\\'
  | newline => 'n'
  | carriageReturn => 'r'
  | tab => 't'

def byte : Escape → UInt8
  | quote => 0x22
  | backslash => 0x5C
  | newline => 0x0A
  | carriageReturn => 0x0D
  | tab => 0x09

theorem unescape?_letter (e : Escape) : Token.unescape? e.letter = some e.byte := by
  cases e <;> rfl

theorem exists_encode_eq (e : Escape) : ∃ c, encode c = [e.byte] := by
  cases e with
  | quote => exact ⟨'"', rfl⟩
  | backslash => exact ⟨'\\', rfl⟩
  | newline => exact ⟨'\n', rfl⟩
  | carriageReturn => exact ⟨'\r', rfl⟩
  | tab => exact ⟨'\t', rfl⟩

theorem unescape?_eq_none {c : Char} (h : ∀ e : Escape, e.letter ≠ c) :
    Token.unescape? c = none := by
  unfold Token.unescape?
  split
  · exact absurd rfl (h quote)
  · exact absurd rfl (h backslash)
  · exact absurd rfl (h newline)
  · exact absurd rfl (h carriageReturn)
  · exact absurd rfl (h tab)
  · rfl

end Escape

/-- One element of the body of a string literal. -/
inductive Piece where
  | raw (b : {b : UInt8 // b ≠ 0x22 ∧ b ≠ 0x5C})
  | escape (e : Escape)
deriving DecidableEq

namespace Piece

def spelling : Piece → Bytes
  | raw b => [b.1]
  | escape e => encode '\\' ++ encode e.letter

def byte : Piece → UInt8
  | raw b => b.1
  | escape e => e.byte

def spellAll (body : List Piece) : Bytes :=
  body.flatMap spelling

def opened (body : List Piece) : Bytes :=
  encode '"' ++ spellAll body

def text (body : List Piece) : Bytes :=
  body.map byte

end Piece

inductive Lexeme where
  | opening
  | closing
  | boolean (value : Bool)
  | blank (first : {c : Char // Token.isSpace c}) (others : Word Token.isSpace)
  | identifier (first : {c : Char // Token.isInitial c}) (others : Word Token.isSubsequent)
  | integer (first : {c : Char // Text.isDigit c}) (others : Word Text.isDigit)
      (fits : Word.number (first :: others) < 2 ^ 64)
  | string (body : List Piece)

namespace Lexeme

def spelling : Lexeme → Bytes
  | opening => encode '('
  | closing => encode ')'
  | boolean true => encode '#' ++ encode 't'
  | boolean false => encode '#' ++ encode 'f'
  | blank first others => encode first.1 ++ others.spelling
  | identifier first others => encode first.1 ++ others.spelling
  | integer first others _ => encode first.1 ++ others.spelling
  | string body => Piece.opened body ++ encode '"'

def kind : Lexeme → Token.Kind
  | opening => .opening
  | closing => .closing
  | boolean value => .boolean value
  | blank .. => .blank
  | identifier .. => .identifier
  | integer _ _ fits => .integer (.ofNatLT _ fits)
  | string _ => .string

/-- The text that the token keeps: the spelling, or for a string the text it denotes. -/
def literal : Lexeme → Bytes
  | string body => Text.repair (Piece.text body)
  | l => l.spelling

/-- The characters that would extend the lexeme if they followed it. -/
def prolongs : Lexeme → Char → Bool
  | blank .. => Token.isSpace
  | identifier .. => Token.isSubsequent
  | integer .. => Text.isDigit
  | _ => fun _ => false

/-- The lexeme is maximal when `rest` follows it. -/
def StopsAt (l : Lexeme) (rest : Bytes) : Prop :=
  ∀ c ∈ first? rest, l.prolongs c = false

def spellAll (ls : List Lexeme) : Bytes :=
  ls.flatMap spelling

@[simp] theorem spellAll_nil : spellAll [] = [] := rfl

@[simp] theorem spellAll_cons (l : Lexeme) (ls : List Lexeme) :
    spellAll (l :: ls) = l.spelling ++ spellAll ls := rfl

def first : Lexeme → Char
  | opening => '('
  | closing => ')'
  | boolean _ => '#'
  | blank c _ => c.1
  | identifier c _ => c.1
  | integer c _ _ => c.1
  | string _ => '"'

theorem spelling_eq_first_append (l : Lexeme) : ∃ rest, l.spelling = encode l.first ++ rest := by
  cases l with
  | opening | closing => exact ⟨[], rfl⟩
  | boolean value => cases value <;> exact ⟨_, rfl⟩
  | blank | identifier | integer => exact ⟨_, rfl⟩
  | string body => exact ⟨_, List.append_assoc ..⟩

theorem first?_spelling (l : Lexeme) (rest : Bytes) :
    first? (l.spelling ++ rest) = some l.first := by
  obtain ⟨more, h⟩ := l.spelling_eq_first_append
  rw [h, List.append_assoc, Text.first?_encode]

theorem spelling_ne_nil (l : Lexeme) : l.spelling ≠ [] := by
  obtain ⟨more, h⟩ := l.spelling_eq_first_append
  rw [h]
  exact fun hnil => Text.encode_ne_nil _ (List.append_eq_nil_iff.1 hnil).1

theorem isWhole_spelling (l : Lexeme) : Text.IsWhole l.spelling := by
  cases l with
  | opening => exact Text.isWhole_encode '('
  | closing => exact Text.isWhole_encode ')'
  | boolean value => cases value <;> exact Text.isWhole_append_encode _ _
  | blank c w | identifier c w | integer c w =>
    exact (Text.isWhole_encode c.1).append w.isWhole_spelling
  | string body => exact Text.isWhole_append_encode _ _

end Lexeme

def Token.starts (c : Char) : Bool :=
  c = '(' || c = ')' || c = '#' || c = '"' || isSpace c || isInitial c || Text.isDigit c

/-- `Flaw pos text e`: no lexeme is a prefix of the text, which starts at `pos`, and `e` is the
error in the one that was begun. -/
inductive Flaw (pos : Position) : Bytes → LexError → Prop where
  | stray {text : Bytes} {c : Char} (hc : first? text = some c) (hs : Token.starts c = false) :
      Flaw pos text (.unexpectedChar pos c)
  | loneHash : Flaw pos (encode '#') (.unexpectedEnd (pos.past (encode '#')))
  | notBoolean {rest : Bytes} {c : Char} (hc : first? rest = some c) (ht : c ≠ 't') (hf : c ≠ 'f') :
      Flaw pos (encode '#' ++ rest) (.unexpectedChar (pos.past (encode '#')) c)
  | unclosed (body : List Piece) :
      Flaw pos (Piece.opened body) (.unexpectedEnd (pos.past (Piece.opened body)))
  | cutEscape (body : List Piece) :
      Flaw pos (Piece.opened body ++ encode '\\')
        (.unexpectedEnd (pos.past (Piece.opened body ++ encode '\\')))
  | badEscape (body : List Piece) {rest : Bytes} {c : Char} (hc : first? rest = some c)
      (he : ∀ e : Escape, e.letter ≠ c) :
      Flaw pos (Piece.opened body ++ encode '\\' ++ rest)
        (.unexpectedChar (pos.past (Piece.opened body ++ encode '\\')) c)
  | overflow {w : Word Text.isDigit} {rest : Bytes} (hw : 2 ^ 64 ≤ w.number)
      (hrest : ∀ c ∈ first? rest, Text.isDigit c = false) :
      Flaw pos (w.spelling ++ rest) (.integerOverflow pos w.spelling)

theorem starts_replacement : Token.starts replacement = false := by decide +kernel

/-- After an opening quote a text runs to the closing quote, to its end, or to a backslash that
starts no escape. -/
theorem Piece.exists_body (text : Bytes) :
    ∃ (body : List Piece) (rest : Bytes), text = spellAll body ++ rest ∧
      (rest = [] ∨ (∃ more, rest = encode '"' ++ more) ∨ rest = encode '\\' ∨
        ∃ more c, rest = encode '\\' ++ more ∧ first? more = some c ∧
          ∀ e : Escape, e.letter ≠ c) := by
  induction hn : text.length using Nat.strongRecOn generalizing text with
  | ind n ih =>
    subst hn
    match text with
    | [] => exact ⟨[], [], rfl, .inl rfl⟩
    | b :: rest =>
      by_cases hq : b = 0x22
      · subst hq
        exact ⟨[], _, rfl, .inr (.inl ⟨rest, rfl⟩)⟩
      by_cases hb : b = 0x5C
      · subst hb
        by_cases hrest : rest = []
        · subst hrest
          exact ⟨[], _, rfl, .inr (.inr (.inl rfl))⟩
        obtain ⟨c, hc⟩ := Text.first?_isSome hrest
        by_cases he : ∃ e : Escape, e.letter = c
        · obtain ⟨e, rfl⟩ := he
          have hletter : e.letter ≠ replacement := by cases e <;> decide
          obtain ⟨more, rfl⟩ := Text.eq_encode_append_of_first? hc hletter
          have hlt : more.length < (0x5C :: (encode e.letter ++ more)).length := by
            simp only [List.length_cons, List.length_append]
            omega
          obtain ⟨body, tail, rfl, htail⟩ := ih _ hlt more rfl
          exact ⟨.escape e :: body, tail, by simp [spellAll, spelling]; rfl, htail⟩
        · exact ⟨[], _, rfl, .inr (.inr (.inr ⟨rest, c, rfl, hc, not_exists.1 he⟩))⟩
      · obtain ⟨body, tail, rfl, htail⟩ := ih _ (Nat.lt_succ_self _) rest rfl
        exact ⟨.raw ⟨b, hq, hb⟩ :: body, tail, rfl, htail⟩

section

variable (pos : Position) (rest : Bytes)

def Lexeme.IsFront (text : Bytes) : Prop :=
  (∃ l rest, text = Lexeme.spelling l ++ rest ∧ l.StopsAt rest) ∨ ∃ e, Flaw pos text e

theorem isFront_hash : Lexeme.IsFront pos (encode '#' ++ rest) := by
  by_cases hne : rest = []
  · subst hne
    exact .inr ⟨_, .loneHash⟩
  obtain ⟨c, hc⟩ := Text.first?_isSome hne
  by_cases ht : c = 't'
  · subst ht
    obtain ⟨more, rfl⟩ := Text.eq_encode_append_of_first? hc (by decide)
    exact .inl ⟨.boolean true, more, rfl, fun _ _ => rfl⟩
  by_cases hf : c = 'f'
  · subst hf
    obtain ⟨more, rfl⟩ := Text.eq_encode_append_of_first? hc (by decide)
    exact .inl ⟨.boolean false, more, rfl, fun _ _ => rfl⟩
  exact .inr ⟨_, .notBoolean hc ht hf⟩

theorem isFront_quote : Lexeme.IsFront pos (encode '"' ++ rest) := by
  obtain ⟨body, tail, rfl, h⟩ := Piece.exists_body rest
  rw [← List.append_assoc]
  rcases h with rfl | ⟨more, rfl⟩ | rfl | ⟨more, c, rfl, hc, he⟩
  · rw [List.append_nil]
    exact .inr ⟨_, .unclosed body⟩
  · rw [← List.append_assoc]
    exact .inl ⟨.string body, more, rfl, fun _ _ => rfl⟩
  · exact .inr ⟨_, .cutEscape body⟩
  · rw [← List.append_assoc]
    exact .inr ⟨_, .badEscape body hc he⟩

theorem isFront_digit {c : Char} (hc : Text.isDigit c) :
    Lexeme.IsFront pos (encode c ++ rest) := by
  obtain ⟨w, more, rfl, hmore⟩ := Word.exists_longest (p := Text.isDigit) (by decide) rest
  rw [← List.append_assoc]
  by_cases hfits : Word.number (⟨c, hc⟩ :: w) < 2 ^ 64
  · exact .inl ⟨.integer ⟨c, hc⟩ w hfits, more, rfl, hmore⟩
  · exact .inr ⟨_, .overflow (w := ⟨c, hc⟩ :: w) (Nat.le_of_not_lt hfits) hmore⟩

/-- A nonempty text starts with a maximal lexeme or with a flaw. -/
theorem isFront_of_ne_nil {text : Bytes} (hne : text ≠ []) : Lexeme.IsFront pos text := by
  obtain ⟨c, hc⟩ := Text.first?_isSome hne
  by_cases hs : Token.starts c = true
  · have hc' : c ≠ replacement := by
      rintro rfl
      rw [starts_replacement] at hs
      cases hs
    obtain ⟨rest, rfl⟩ := Text.eq_encode_append_of_first? hc hc'
    simp only [Token.starts, Bool.or_eq_true, decide_eq_true_eq] at hs
    rcases hs with ((((((rfl | rfl) | rfl) | rfl) | hs) | hs) | hs)
    · exact .inl ⟨.opening, rest, rfl, fun _ _ => rfl⟩
    · exact .inl ⟨.closing, rest, rfl, fun _ _ => rfl⟩
    · exact isFront_hash pos rest
    · exact isFront_quote pos rest
    · obtain ⟨w, more, rfl, hmore⟩ := Word.exists_longest (p := Token.isSpace) (by decide) rest
      exact .inl ⟨.blank ⟨c, hs⟩ w, more, (List.append_assoc ..).symm, hmore⟩
    · obtain ⟨w, more, rfl, hmore⟩ :=
        Word.exists_longest (p := Token.isSubsequent) (by decide +kernel) rest
      exact .inl ⟨.identifier ⟨c, hs⟩ w, more, (List.append_assoc ..).symm, hmore⟩
    · exact isFront_digit pos rest hs
  · exact .inr ⟨_, .stray hc (Bool.eq_false_iff.2 hs)⟩

end

end MiniScheme
