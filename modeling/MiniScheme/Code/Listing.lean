import MiniScheme.Code.Chunk
import MiniScheme.Text.Blank

/-! Listings: the code of a program as text, one line for each instruction. -/
namespace MiniScheme

inductive ListingError where
  | noProgram
  | noChunk
  | noMachine
  | noWriter
  | nothingLoaded
deriving DecidableEq, Repr

def ListingError.message : ListingError → Bytes
  | noProgram => ascii "nil module"
  | noChunk => ascii "nil chunk"
  | noMachine => ascii "nil VM"
  | noWriter => ascii "nil writer"
  | nothingLoaded => ascii "no module loaded"

/-- The text up to the error, or all of it. -/
structure Listing where
  text : Bytes := []
  error : Option ListingError := none
deriving DecidableEq, Repr

namespace Listing

/-- The arity of a procedure, as far as listings know it. -/
abbrev Signatures := List (Bytes × Int)

def padLeft (width : Nat) (fill : UInt8) (text : Bytes) : Bytes :=
  List.replicate (width - (Text.glyphs text).length) fill ++ text

def padRight (width : Nat) (fill : UInt8) (text : Bytes) : Bytes :=
  text ++ List.replicate (width - (Text.glyphs text).length) fill

/-- The operand column. An immediate that has no text has no operand column either. -/
def operand? (signatures : Signatures) : Op → Option Bytes
  | .push chunk => some (Text.signedDecimal chunk ++ ascii " ; chunk")
  | .immediate value => value.write?
  | .define name => some name
  | .lookup name =>
    match signatures.lookup name with
    | some arity => some (name ++ ascii " ; native arity=" ++ Text.signedDecimal arity)
    | none => some name
  | .call arity => some (Text.signedDecimal arity)
  | .load | .invalid _ => some []

def lineColumn (line : Int) : Bytes :=
  if 0 ≤ line then Text.signedDecimal line else ascii "-"

/-- One instruction: its offset, its source line, its name and its operand. -/
def opLine? (signatures : Signatures) (lines : List LineEntry) (offset : Nat) (op : Op) :
    Option Bytes := do
  let detail := Text.trim (← operand? signatures op)
  some (padLeft 4 0x30 (Text.decimal offset) ++ ascii " " ++
    padLeft 4 0x20 (lineColumn (lineAt lines offset)) ++ ascii " " ++
    padRight 18 0x20 op.mnemonic ++
    (if detail = [] then [] else ascii " " ++ detail) ++ ascii "\n")

/-- The instructions from `offset` on. -/
def opLines? (signatures : Signatures) (lines : List LineEntry) : Nat → List Op → Option Bytes
  | _, [] => some []
  | offset, op :: ops => do
    let line ← opLine? signatures lines offset op
    let rest ← opLines? signatures lines (offset + 1) ops
    some (line ++ rest)

def chunk? (signatures : Signatures) (isEntry : Bool) (c : Chunk) : Option Bytes := do
  let body ← opLines? signatures c.lines 0 c.code
  some (ascii "chunk " ++ Text.signedDecimal c.id ++
    (if isEntry then ascii " [entry]" else []) ++
    ascii " (ops=" ++ Text.decimal c.code.length ++ ascii ")\n" ++ body)

/-- The chunks in order, with an empty line before each but the first. -/
def chunks? (signatures : Signatures) (entries : List Int) :
    (first : Bool) → List (Option Chunk) → Option Listing
  | _, [] => some {}
  | _, none :: _ => some { error := some .noChunk }
  | first, some c :: rest => do
    let text ← chunk? signatures (entries.contains c.id) c
    let tail ← chunks? signatures entries false rest
    some { tail with text := (if first then [] else ascii "\n") ++ text ++ tail.text }

/-- The listing of a program; `none` if an immediate in it has no text. -/
def ofProgram? (signatures : Signatures) : Option Program → Option Listing
  | none => some { error := some .noProgram }
  | some p => chunks? signatures p.entries true p.chunks

end Listing

end MiniScheme
