import MiniScheme.Text.Decimal
import MiniScheme.Text.Printable
import MiniScheme.Text.Utf8

/-! Quoted text: printable characters denote themselves and all others are escaped, so that the
quoted form is printable. -/
namespace MiniScheme.Text

/-- Escapes of one letter. -/
def shortEscape? (c : Char) : Option Char :=
  match c.toNat with
  | 7 => some 'a'
  | 8 => some 'b'
  | 9 => some 't'
  | 10 => some 'n'
  | 11 => some 'v'
  | 12 => some 'f'
  | 13 => some 'r'
  | _ => none

/-- Escapes by number are as wide as the code point needs: two, four or eight digits. -/
def numericEscape (c : Char) : Bytes :=
  if c.toNat < 0x80 then ascii "\\x" ++ hexadecimal 2 c.toNat
  else if c.toNat < 0x10000 then ascii "\\u" ++ hexadecimal 4 c.toNat
  else ascii "\\U" ++ hexadecimal 8 c.toNat

/-- One character inside the marks `mark`. -/
def escapeChar (mark c : Char) : Bytes :=
  if c = mark ∨ c = '\\' then 0x5C :: encode c
  else if isPrintable c then encode c
  else match shortEscape? c with
    | some letter => 0x5C :: encode letter
    | none => numericEscape c

/-- One character of a text; a byte that is no character is escaped by its own number. -/
def escapeGlyph (mark : Char) (g : Glyph) : Bytes :=
  match g.char == replacement, g.bytes with
  | true, [b] => ascii "\\x" ++ hexadecimal 2 b.toNat
  | _, _ => escapeChar mark g.char

/-- A text in double quotes. -/
def quote (text : Bytes) : Bytes :=
  0x22 :: (glyphs text).flatMap (escapeGlyph '"') ++ [0x22]

/-- A character in single quotes. -/
def quoteChar (c : Char) : Bytes :=
  0x27 :: escapeChar '\'' c ++ [0x27]

end MiniScheme.Text
