import MiniScheme.Text.Decimal
import MiniScheme.Text.Utf8

/-! Positions in a source text. -/
namespace MiniScheme

/-- The offset counts bytes, the column counts characters; all three start at zero. -/
structure Position where
  offset : Int := 0
  line : Int := 0
  column : Int := 0
deriving DecidableEq, Repr, Inhabited

namespace Position

/-- The position after one character. -/
def step (p : Position) (g : Text.Glyph) : Position :=
  if g.char = '\n' then ⟨p.offset + g.bytes.length, p.line + 1, 0⟩
  else ⟨p.offset + g.bytes.length, p.line, p.column + 1⟩

/-- The position after a run of characters. -/
def after (p : Position) (gs : List Text.Glyph) : Position :=
  gs.foldl step p

def text (p : Position) : Bytes :=
  Text.signedDecimal p.line ++ 0x3A :: Text.signedDecimal p.column

end Position

end MiniScheme
