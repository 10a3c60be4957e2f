import MiniScheme.Proofs.Token.Lexeme

/-! Numerals. The decimal text of a number is a word of digits, and is injective where no digit
follows it. -/
namespace MiniScheme

open Text (encode first?)

namespace Word

def ofNat (n : Nat) : Word Text.isDigit :=
  (Nat.toDigits 10 n).attach.map fun c =>
    ⟨c.1, Nat.isDigit_of_mem_toDigits (by decide) (by decide) c.2⟩

theorem ofNat_ne_nil (n : Nat) : ofNat n ≠ [] := by
  unfold ofNat
  simp only [ne_eq, List.map_eq_nil_iff, List.attach_eq_nil_iff]
  exact Nat.toDigits_ne_nil

theorem map_val_ofNat (n : Nat) : (ofNat n).map (fun c => c.1) = Nat.toDigits 10 n := by
  unfold ofNat
  rw [List.map_map]
  exact List.attach_map_subtype_val _

theorem number_ofNat (n : Nat) : (ofNat n).number = n := by
  rw [number_eq_ofDigits, map_val_ofNat]
  exact Nat.ofDigitChars_eq_foldl.symm.trans Nat.ofDigitChars_ten_toDigits

theorem encode_of_isDigit {c : Char} (h : Text.isDigit c) : encode c = [c.toNat.toUInt8] := by
  have hc : 48 ≤ c.toNat ∧ c.toNat ≤ 57 := by
    simpa [Text.isDigit, Char.le_def, UInt32.le_iff_toNat_le] using h
  have hlt : c.toNat < 0x80 := by omega
  exact if_pos hlt

theorem spelling_ofNat (n : Nat) : (ofNat n).spelling = Text.decimal n := by
  have hbytes (w : Word Text.isDigit) :
      w.spelling = (w.map fun c => c.1).map fun c => c.toNat.toUInt8 := by
    induction w with
    | nil => rfl
    | cons c w ih => rw [spelling_cons, ih, encode_of_isDigit c.2]; rfl
  rw [hbytes, map_val_ofNat]
  rfl

end Word

/-- The decimal text of a number is a lexeme. -/
theorem Lexeme.exists_integer (n : UInt64) :
    ∃ l : Lexeme, l.spelling = Text.decimal n.toNat ∧ l.kind = .integer n := by
  obtain ⟨first, others, hword⟩ := List.exists_cons_of_ne_nil (Word.ofNat_ne_nil n.toNat)
  have hnumber : Word.number (first :: others) = n.toNat := by rw [← hword, Word.number_ofNat]
  have hfits : Word.number (first :: others) < 2 ^ 64 := by
    rw [hnumber]
    exact n.toNat_lt
  refine ⟨.integer first others hfits, ?_, ?_⟩
  · rw [← Word.spelling_ofNat, hword]
    rfl
  · have hvalue : UInt64.ofNatLT _ hfits = n := by
      apply UInt64.toNat_inj.1
      rw [UInt64.toNat_ofNatLT, hnumber]
    exact congrArg Token.Kind.integer hvalue

/-- Decimal text is injective where no digit follows it. -/
theorem Text.decimal_append_inj {n m : Nat} {s t : Bytes}
    (hs : ∀ c ∈ first? s, Text.isDigit c = false) (ht : ∀ c ∈ first? t, Text.isDigit c = false)
    (h : Text.decimal n ++ s = Text.decimal m ++ t) : n = m ∧ s = t := by
  rw [← Word.spelling_ofNat, ← Word.spelling_ofNat] at h
  obtain ⟨hwords, hst⟩ := Word.spelling_append_inj hs ht h
  have hnumber := congrArg Word.number hwords
  rw [Word.number_ofNat, Word.number_ofNat] at hnumber
  exact ⟨hnumber, hst⟩

end MiniScheme
