import MiniScheme.Machine.Console
import MiniScheme.Text.Blank

/-! Log events as lines of text. -/
namespace MiniScheme.Cli

/-- Whether a character keeps a value from being written bare. -/
def needsQuotes (g : Text.Glyph) : Bool :=
  if g.char.toNat < 0x80 then
    g.char.toNat ≤ 0x20 || g.char = '=' || g.char = '"'
  else
    g.char = Text.replacement || Text.isBlank g.char || !Text.isPrintable g.char

def logValue (text : Bytes) : Bytes :=
  if text = [] || (Text.glyphs text).any needsQuotes then Text.quote text else text

def logLine (event : LogEvent) : Bytes :=
  ascii "level=DEBUG msg=" ++ logValue event.message ++
    (event.fields.flatMap fun (key, value) =>
      ascii " " ++ key ++ ascii "=" ++ logValue value) ++
    ascii "\n"

end MiniScheme.Cli
