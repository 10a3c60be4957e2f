import MiniScheme.Text.Bytes

/-! Lines of input. -/
namespace MiniScheme.Cli

/-- The longest line that is read in one piece, its newline included. -/
def lineCapacity : Nat := 4096

def newline : UInt8 := 0x0A

def carriageReturn : UInt8 := 0x0D

/-- A line as read: whole, or the part of a longer one that fits. -/
structure Line where
  text : Bytes
  isWhole : Bool := true
deriving DecidableEq, Repr

/-- A whole line loses its newline, and a carriage return before it. A part does not end in a
carriage return, since a newline might follow. -/
def readLine : Bytes → Option (Line × Bytes)
  | [] => none
  | input =>
    let text := (input.take lineCapacity).takeWhile (· ≠ newline)
    if text.length = lineCapacity then
      let text := if text.getLast? = some carriageReturn then text.dropLast else text
      some (⟨text, false⟩, input.drop text.length)
    else
      let rest := input.drop (text.length + 1)
      if text.length < input.length ∧ text.getLast? = some carriageReturn then
        some (⟨text.dropLast, true⟩, rest)
      else some (⟨text, true⟩, rest)

/-- Up to `count` lines. -/
def readLines : (count : Nat) → Bytes → List Line
  | 0, _ => []
  | count + 1, input =>
    match readLine input with
    | none => []
    | some (line, rest) => line :: readLines count rest

/-- All lines of an input. Every line takes at least one byte, so the count suffices. -/
def allLines (input : Bytes) : List Line :=
  readLines input.length input

end MiniScheme.Cli
