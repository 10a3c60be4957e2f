import MiniScheme.Code.Op

/-! Chunks of code, and the table that gives each instruction its source line. -/
namespace MiniScheme

/-- From `offset` on, instructions are on `line`. -/
structure LineEntry where
  offset : Int
  line : Int
deriving DecidableEq, Repr

/-- The line of the last entry before the first one that starts after `offset`; `line` if the
table is empty up to there. -/
def lineFrom (line : Int) : List LineEntry → (offset : Int) → Int
  | [], _ => line
  | entry :: entries, offset =>
    if offset < entry.offset then line else lineFrom entry.line entries offset

/-- The source line of the instruction at an offset, -1 where none is recorded. -/
def lineAt (lines : List LineEntry) (offset : Int) : Int :=
  lineFrom (-1) lines offset

structure Chunk where
  id : Int := 0
  code : List Op := []
  lines : List LineEntry := []
deriving DecidableEq, Repr

namespace Chunk

/-- Adds an instruction. The line is recorded only where it changes. -/
def emit (c : Chunk) (op : Op) (line : Int) : Chunk :=
  { c with
    code := c.code ++ [op]
    lines :=
      if c.lines.getLast?.map (·.line) = some line then c.lines
      else c.lines ++ [⟨c.code.length, line⟩] }

/-- A chunk whose instructions are all on one line. -/
def onLine (id : Int) (line : Int) (ops : List Op) : Chunk :=
  ops.foldl (fun c op => c.emit op line) { id }

end Chunk

/-- A table of chunks, addressed by index, and the indices of the top-level forms in source order.
A chunk may be missing. -/
structure Program where
  chunks : List (Option Chunk) := []
  entries : List Int := []
deriving DecidableEq, Repr

/-- `none` outside the table, `some none` where the chunk is missing. -/
def Program.chunk? (p : Program) (id : Int) : Option (Option Chunk) :=
  if id < 0 then none else p.chunks[id.toNat]?

end MiniScheme
