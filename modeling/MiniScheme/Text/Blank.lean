import MiniScheme.Text.CharRange
import MiniScheme.Text.Utf8

/-! Blanks: the characters with the Unicode property White_Space. -/
namespace MiniScheme.Text

def blankRanges : List (Nat × Nat) := [
  (0x0009, 0x000D), (0x0020, 0x0020), (0x0085, 0x0085), (0x00A0, 0x00A0), (0x1680, 0x1680),
  (0x2000, 0x200A), (0x2028, 0x2029), (0x202F, 0x202F), (0x205F, 0x205F), (0x3000, 0x3000)]

def isBlank (c : Char) : Bool :=
  inRanges blankRanges c.toNat

/-- A text without the blanks at its two ends. -/
def trim (text : Bytes) : Bytes :=
  let blank (g : Glyph) := isBlank g.char
  spelling (((glyphs text).dropWhile blank).reverse.dropWhile blank).reverse

end MiniScheme.Text
