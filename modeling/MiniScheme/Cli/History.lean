import MiniScheme.Cli.Line
import MiniScheme.Text.Utf8

/-! The history of a session, oldest entry first. -/
namespace MiniScheme.Cli

abbrev History := List Bytes

namespace History

def capacity : Nat := 1000

/-- Adds an entry, and drops the oldest where there are too many. -/
def push (h : History) (entry : Bytes) : History :=
  let h := h ++ [entry]
  if capacity < h.length then h.tail else h

/-- Remembers an entry, unless it repeats the one before. -/
def remember (h : History) (entry : Bytes) : History :=
  if h.getLast? = some entry then h else h.push entry

/-- The entries of a history file, up to the first line that is too long or no text. -/
def ofText (content : Bytes) : History :=
  let good := (allLines content).takeWhile fun line => line.isWhole && Text.isUtf8 line.text
  good.foldl (fun h line => h.push line.text) []

def text (h : History) : Bytes :=
  h.flatMap (· ++ [newline])

end History

end MiniScheme.Cli
