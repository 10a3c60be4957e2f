import Mathlib.Data.Nat.Digits.Defs
import MiniScheme.Proofs.Text.Utf8
import MiniScheme.Text.Quoted

/-! Quoted text. The quoted forms of characters are prefix-free, and none starts with the closing
mark, so quotation is injective, whatever follows it. -/
namespace MiniScheme.Text

section

variable {width n m : Nat}

def digitByte (n : Nat) : UInt8 :=
  n.digitChar.toNat.toUInt8

theorem digitByte_inj (hn : n < 16) (hm : m < 16) (h : digitByte n = digitByte m) : n = m := by
  have hall : ∀ n < 16, ∀ m < 16, digitByte n = digitByte m → n = m := by decide
  exact hall n hn m hm h

theorem hexadecimal_concat (h : 0 < width) (n : Nat) :
    hexadecimal (width + 1) n = hexadecimal width (n / 16) ++ [digitByte (n % 16)] := by
  unfold hexadecimal digits
  rw [Nat.toDigits_eq_if (by decide)]
  split
  · rename_i hn
    have hdiv : n / 16 = 0 := by omega
    have hmod : n % 16 = n := by omega
    obtain ⟨width, rfl⟩ := Nat.exists_eq_add_one_of_ne_zero (Nat.ne_of_gt h)
    rw [hdiv, hmod, Nat.toDigits_zero]
    simp [digitByte, List.replicate_succ']
  · simp [digitByte]

theorem length_hexadecimal (h : 0 < width) (hn : n < 16 ^ width) :
    (hexadecimal width n).length = width := by
  have hle := (Nat.length_toDigits_le_iff (by decide) h).2 hn
  unfold hexadecimal digits
  rw [List.length_append, List.length_replicate, List.length_map]
  omega

theorem hexadecimal_inj (h : 0 < width) (hn : n < 16 ^ width) (hm : m < 16 ^ width)
    (heq : hexadecimal width n = hexadecimal width m) : n = m := by
  induction width, h using Nat.le_induction generalizing n m with
  | base =>
    rw [Nat.succ_eq_add_one, Nat.zero_add, pow_one] at hn hm
    have hdigit (n : Nat) (hn : n < 16) : hexadecimal 1 n = [digitByte n] := by
      unfold hexadecimal digits
      rw [Nat.toDigits_of_lt_base hn]
      rfl
    rw [Nat.succ_eq_add_one, Nat.zero_add, hdigit n hn, hdigit m hm] at heq
    exact digitByte_inj hn hm (List.cons.inj heq).1
  | succ width hw ih =>
    rw [pow_succ] at hn hm
    rw [hexadecimal_concat hw, hexadecimal_concat hw] at heq
    obtain ⟨hfront, hlast⟩ := List.append_inj' heq rfl
    have hdiv := ih (n := n / 16) (m := m / 16) (by omega) (by omega) hfront
    have hmod := digitByte_inj (n := n % 16) (m := m % 16) (by omega) (by omega)
      (List.cons.inj hlast).1
    omega

/-- Numerals of a fixed width are injective, whatever follows them. -/
theorem hexadecimal_append_inj (h : 0 < width) (hn : n < 16 ^ width) (hm : m < 16 ^ width)
    {s t : Bytes} (heq : hexadecimal width n ++ s = hexadecimal width m ++ t) : n = m ∧ s = t := by
  have hlen : (hexadecimal width n).length = (hexadecimal width m).length := by
    rw [length_hexadecimal h hn, length_hexadecimal h hm]
  obtain ⟨hfront, hrest⟩ := List.append_inj heq hlen
  exact ⟨hexadecimal_inj h hn hm hfront, hrest⟩

end

def letterMarks : List (UInt8 × UInt8) :=
  [(0x22, 0x22), (0x5C, 0x5C), (0x61, 7), (0x62, 8), (0x74, 9), (0x6E, 10), (0x76, 11), (0x66, 12),
    (0x72, 13)]

/-- The marks followed by a hexadecimal number, with its width and the bytes it denotes. -/
def numberMark? (mark : UInt8) : Option (Nat × (Nat → Bytes)) :=
  if mark = 0x78 then some (2, fun n => [n.toUInt8])
  else if mark = 0x75 then some (4, fun n => encode (Char.ofNat n))
  else if mark = 0x55 then some (8, fun n => encode (Char.ofNat n))
  else none

/-- `Quotes raw text`: between double quotes, `text` denotes the bytes `raw` of one character, or of
one byte that belongs to none. -/
inductive Quotes : Bytes → Bytes → Prop where
  | plain {c : Char} (hq : c ≠ '"') (hb : c ≠ '\\') : Quotes (encode c) (encode c)
  | letter {mark b : UInt8} (h : letterMarks.lookup mark = some b) : Quotes [b] [0x5C, mark]
  | number {mark : UInt8} {width n : Nat} {meaning : Nat → Bytes}
      (h : numberMark? mark = some (width, meaning)) (hn : n < 16 ^ width) :
      Quotes (meaning n) (0x5C :: mark :: hexadecimal width n)

theorem width_pos {mark : UInt8} {width : Nat} {meaning : Nat → Bytes}
    (h : numberMark? mark = some (width, meaning)) : 0 < width := by
  unfold numberMark? at h
  split_ifs at h <;> cases h <;> decide

theorem numberMark?_of_letter {mark b : UInt8} (h : letterMarks.lookup mark = some b) :
    numberMark? mark = none := by
  have hall : ∀ p ∈ letterMarks, p.1 ≠ 0x78 ∧ p.1 ≠ 0x75 ∧ p.1 ≠ 0x55 := by
    simp [letterMarks]
  obtain ⟨before, after, hmarks, -⟩ := List.lookup_eq_some_iff.1 h
  obtain ⟨hx, hu, hU⟩ := hall (mark, b) (by rw [hmarks]; simp)
  unfold numberMark?
  rw [if_neg hx, if_neg hu, if_neg hU]

theorem eq_backslash {c : Char} {s t : Bytes} (h : encode c ++ s = 0x5C :: t) : c = '\\' :=
  (encode_append_inj (d := '\\') h).1

namespace Quotes

variable {a b x y s t : Bytes}

/-- The forms are prefix-free and injective. -/
theorem append_inj (hx : Quotes a x) (hy : Quotes b y) (h : x ++ s = y ++ t) : a = b ∧ s = t := by
  cases hx with
  | @plain c hq hb =>
    cases hy with
    | @plain d hq' hb' =>
      obtain ⟨rfl, hrest⟩ := encode_append_inj h
      exact ⟨rfl, hrest⟩
    | letter | number => exact absurd (eq_backslash h) hb
  | @letter mark byte hmark =>
    cases hy with
    | plain hq' hb' => exact absurd (eq_backslash h.symm) hb'
    | @letter mark' byte' hmark' =>
      obtain ⟨rfl, hrest⟩ : mark = mark' ∧ s = t := by simpa using h
      rw [hmark] at hmark'
      cases hmark'
      exact ⟨rfl, hrest⟩
    | @number mark' width n meaning hmark' hn =>
      obtain ⟨rfl, -⟩ := List.cons.inj (List.cons.inj h).2
      rw [numberMark?_of_letter hmark] at hmark'
      cases hmark'
  | @number mark width n meaning hmark hn =>
    cases hy with
    | plain hq' hb' => exact absurd (eq_backslash h.symm) hb'
    | @letter mark' byte' hmark' =>
      obtain ⟨rfl, -⟩ := List.cons.inj (List.cons.inj h).2
      rw [numberMark?_of_letter hmark'] at hmark
      cases hmark
    | @number mark' width' m meaning' hmark' hm =>
      obtain ⟨rfl, hnumber⟩ := List.cons.inj (List.cons.inj h).2
      rw [hmark] at hmark'
      cases hmark'
      obtain ⟨rfl, hrest⟩ := hexadecimal_append_inj (width_pos hmark) hn hm hnumber
      exact ⟨rfl, hrest⟩

/-- No form starts with the closing mark. -/
theorem ne_closing (hx : Quotes a x) (h : x ++ s = 0x22 :: t) : False := by
  cases hx with
  | @plain c hq hb => exact hq (encode_append_inj (d := '"') h).1
  | letter | number => exact absurd (List.cons.inj h).1 (by decide)

end Quotes

section

variable {c : Char}

theorem quotes_numericEscape (c : Char) : Quotes (encode c) (numericEscape c) := by
  have hc := toNat_lt c
  have hself : encode c = encode (Char.ofNat c.toNat) := by rw [Char.ofNat_toNat]
  unfold numericEscape
  split_ifs with h1 h2
  · have hbyte : encode c = [c.toNat.toUInt8] := if_pos h1
    rw [hbyte]
    exact @Quotes.number 0x78 2 _ _ rfl (Nat.lt_trans h1 (by decide))
  · rw [hself]
    exact @Quotes.number 0x75 4 _ _ rfl h2
  · rw [hself]
    exact @Quotes.number 0x55 8 _ _ rfl (Nat.lt_trans hc (by decide))

theorem quotes_shortEscape {letter : Char} (h : shortEscape? c = some letter) :
    Quotes (encode c) (0x5C :: encode letter) := by
  unfold shortEscape? at h
  split at h
  all_goals cases h
  all_goals
    rename_i hc
    rw [← Char.ofNat_toNat c, hc]
    exact .letter (by decide)

theorem quotes_escapeChar (c : Char) : Quotes (encode c) (escapeChar '"' c) := by
  unfold escapeChar
  split_ifs with hmark hprint
  · rcases hmark with rfl | rfl
    · exact @Quotes.letter 0x22 _ rfl
    · exact @Quotes.letter 0x5C _ rfl
  · obtain ⟨hq, hb⟩ := not_or.1 hmark
    exact .plain hq hb
  · split
    · rename_i letter hletter
      exact quotes_shortEscape hletter
    · exact quotes_numericEscape c

theorem escapeGlyph_encode (mark c : Char) :
    escapeGlyph mark ⟨c, encode c⟩ = escapeChar mark c := by
  unfold escapeGlyph
  split
  · rename_i b hc hbytes
    obtain rfl : c = replacement := by simpa using hc
    cases hbytes
  · rfl

/-- Every decoded character is quoted by its own form. -/
theorem quotes_of_mem_glyphs {text : Bytes} {g : Glyph} (h : g ∈ glyphs text) :
    Quotes g.bytes (escapeGlyph '"' g) := by
  induction text using text_induction with
  | nil => cases h
  | char c rest ih =>
    rw [glyphs_encode] at h
    rcases List.mem_cons.1 h with rfl | h
    · rw [escapeGlyph_encode]
      exact quotes_escapeChar c
    · exact ih h
  | invalid b rest hinv ih =>
    rw [glyphs_invalid hinv] at h
    rcases List.mem_cons.1 h with rfl | h
    · have hform : Quotes [b.toNat.toUInt8] (0x5C :: 0x78 :: hexadecimal 2 b.toNat) :=
        @Quotes.number 0x78 2 _ _ rfl b.toNat_lt
      rw [(toUInt8_eq_iff b.toNat_lt).2 rfl] at hform
      exact hform
    · exact ih h

end

/-- Sequences of forms, up to the closing mark, are injective. -/
theorem flatMap_escapeGlyph_inj {gs hs : List Glyph} {s t : Bytes}
    (hgs : ∀ g ∈ gs, Quotes g.bytes (escapeGlyph '"' g))
    (hhs : ∀ g ∈ hs, Quotes g.bytes (escapeGlyph '"' g))
    (h : gs.flatMap (escapeGlyph '"') ++ 0x22 :: s = hs.flatMap (escapeGlyph '"') ++ 0x22 :: t) :
    spelling gs = spelling hs ∧ s = t := by
  induction gs generalizing hs with
  | nil =>
    cases hs with
    | nil => exact ⟨rfl, (List.cons.inj h).2⟩
    | cons g hs =>
      rw [List.flatMap_cons, List.append_assoc] at h
      exact ((hhs g List.mem_cons_self).ne_closing h.symm).elim
  | cons g gs ih =>
    obtain ⟨hg, hgs⟩ := List.forall_mem_cons.1 hgs
    cases hs with
    | nil =>
      rw [List.flatMap_cons, List.append_assoc] at h
      exact (hg.ne_closing h).elim
    | cons g' hs =>
      obtain ⟨hg', hhs⟩ := List.forall_mem_cons.1 hhs
      rw [List.flatMap_cons, List.flatMap_cons, List.append_assoc, List.append_assoc] at h
      obtain ⟨hbytes, hrest⟩ := hg.append_inj hg' h
      obtain ⟨hspelling, hst⟩ := ih hgs hhs hrest
      refine ⟨?_, hst⟩
      unfold spelling at hspelling ⊢
      rw [List.flatMap_cons, List.flatMap_cons, hbytes, hspelling]

/-- Quotation is injective, whatever follows it. -/
theorem quote_append_inj {a b s t : Bytes} (h : quote a ++ s = quote b ++ t) : a = b ∧ s = t := by
  have hsplit (a s : Bytes) : quote a ++ s =
      0x22 :: ((glyphs a).flatMap (escapeGlyph '"') ++ 0x22 :: s) := by simp [quote]
  rw [hsplit, hsplit] at h
  obtain ⟨hspelling, hst⟩ := flatMap_escapeGlyph_inj (fun g hg => quotes_of_mem_glyphs hg)
    (fun g hg => quotes_of_mem_glyphs hg) (List.cons.inj h).2
  rw [spelling_glyphs, spelling_glyphs] at hspelling
  exact ⟨hspelling, hst⟩

end MiniScheme.Text
