import MiniScheme.Position
import MiniScheme.Proofs.Text.Utf8

/-! Positions after a text, and positions in a source that other lines precede. -/
namespace MiniScheme.Position

open Text (IsBoundary IsWhole encode glyphs)

def past (p : Position) (text : Bytes) : Position :=
  p.after (glyphs text)

@[simp] theorem past_nil (p : Position) : p.past [] = p := rfl

theorem after_append (p : Position) (gs hs : List Text.Glyph) :
    p.after (gs ++ hs) = (p.after gs).after hs :=
  List.foldl_append

theorem past_encode (p : Position) (c : Char) (rest : Bytes) :
    p.past (encode c ++ rest) = (p.step ⟨c, encode c⟩).past rest := by
  unfold past
  rw [Text.glyphs_encode]
  rfl

theorem past_char (p : Position) (c : Char) : p.past (encode c) = p.step ⟨c, encode c⟩ := by
  have h := p.past_encode c []
  rwa [List.append_nil] at h

theorem past_invalid (p : Position) {b : UInt8} {rest : Bytes} (h : ∀ c, ¬ encode c <+: b :: rest) :
    p.past (b :: rest) = (p.step ⟨Text.replacement, [b]⟩).past rest := by
  unfold past
  rw [Text.glyphs_invalid h]
  rfl

theorem past_append (p : Position) (text : Bytes) {rest : Bytes} (h : IsBoundary rest) :
    p.past (text ++ rest) = (p.past text).past rest := by
  unfold past
  rw [Text.glyphs_append text h, after_append]

theorem past_whole (p : Position) {text : Bytes} (h : IsWhole text) (rest : Bytes) :
    p.past (text ++ rest) = (p.past text).past rest := by
  unfold past
  rw [h rest, after_append]

theorem offset_step (p : Position) (g : Text.Glyph) :
    (p.step g).offset = p.offset + g.bytes.length := by
  unfold step
  split <;> rfl

theorem offset_past (p : Position) (text : Bytes) :
    (p.past text).offset = p.offset + text.length := by
  induction text using Text.text_induction generalizing p with
  | nil => simp
  | char c rest ih =>
    rw [past_encode, ih, offset_step, List.length_append]
    push_cast
    omega
  | invalid b rest h ih =>
    rw [past_invalid p h, ih, offset_step]
    simp only [List.length_cons, List.length_nil]
    omega

/-- Lines count newline bytes, which are part of no longer character. -/
theorem line_past (p : Position) (text : Bytes) :
    (p.past text).line = p.line + text.count 0x0A := by
  induction text using Text.text_induction generalizing p with
  | nil => simp
  | char c rest ih =>
    rw [past_encode, ih, List.count_append]
    by_cases hc : c = '\n'
    · subst hc
      have h1 : (encode '\n').count 0x0A = 1 := by decide
      rw [h1, step, if_pos rfl]
      push_cast
      omega
    · have h0 : (encode c).count 0x0A = 0 := by
        refine List.count_eq_zero.2 fun hmem => hc ?_
        exact Text.eq_ofNat_of_mem_encode (by decide) hmem
      rw [h0, step, if_neg hc]
      push_cast
      omega
  | invalid b rest h ih =>
    have hb : b ≠ 0x0A := by
      rintro rfl
      exact h '\n' ⟨rest, rfl⟩
    have hr : Text.replacement ≠ '\n' := by decide
    rw [past_invalid p h, ih, List.count_cons_of_ne hb, step, if_neg hr]

/-- The position `p` in a source that is preceded by `lines` lines, of `bytes` bytes in all. -/
def shift (bytes lines : Nat) (p : Position) : Position :=
  ⟨p.offset + bytes, p.line + lines, p.column⟩

theorem shift_step (bytes lines : Nat) (p : Position) (g : Text.Glyph) :
    (p.shift bytes lines).step g = (p.step g).shift bytes lines := by
  unfold step
  split
  · simp only [shift, mk.injEq, and_true]
    omega
  · simp only [shift, mk.injEq, and_true]
    omega

theorem shift_past (bytes lines : Nat) (p : Position) (text : Bytes) :
    (p.shift bytes lines).past text = (p.past text).shift bytes lines := by
  induction text using Text.text_induction generalizing p with
  | nil => rfl
  | char c rest ih => rw [past_encode, past_encode, shift_step, ih]
  | invalid b rest h ih => rw [past_invalid _ h, past_invalid _ h, shift_step, ih]

theorem past_newline (text : Bytes) :
    past {} (text ++ [0x0A]) = shift (text.length + 1) (text.count 0x0A + 1) {} := by
  have hb : IsBoundary [0x0A] := Text.isBoundary_cons (by decide) []
  have hoff := offset_past {} text
  have hline := line_past {} text
  have hstep (p : Position) : p.past [0x0A] = ⟨p.offset + 1, p.line + 1, 0⟩ := rfl
  rw [past_append _ _ hb, hstep, hoff, hline]
  simp only [shift, mk.injEq, and_true]
  push_cast
  omega

end MiniScheme.Position
