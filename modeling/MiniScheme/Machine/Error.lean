import MiniScheme.Text.Decimal

/-! What can go wrong while a program runs, and where it went wrong. -/
namespace MiniScheme

/-- The position of an open frame, as diagnostics show it: the chunk, the source line and the offset
of the instruction. -/
structure Site where
  chunk : Int
  line : Int
  offset : Int
deriving DecidableEq, Repr

namespace Site

/-- The absence of a site. -/
def none : Site := ⟨-1, -1, -1⟩

/-- A message with the chunk and the line in front, as far as they are known. -/
def locate (s : Site) (message : Bytes) : Bytes :=
  let chunk := if 0 ≤ s.chunk then [ascii "chunk " ++ Text.signedDecimal s.chunk] else []
  let line := if 0 ≤ s.line then [ascii "line " ++ Text.signedDecimal s.line] else []
  match chunk ++ line with
  | [] => message
  | parts => Bytes.join (ascii " ") parts ++ ascii ": " ++ message

end Site

/-- Causes of failure. `typeMismatch` is raised by native procedures, `other` by hosts and writers,
all else by the machine itself. -/
inductive Cause where
  | unbound (name : Bytes)
  | unknownProcedure (name : Bytes)
  | notProcedure (name : Bytes)
  | arity (name : Bytes) (expected got : Int)
  | typeMismatch (detail : Bytes)
  | stackUnderflow
  | callUnderflow (name : Bytes) (needed : Int) (held : Nat)
  | lookupWhilePending (name pending : Bytes)
  | loadWithoutLookup
  | callWithoutLookup
  | unusedReference (name : Bytes)
  | unknownChunk (id : Int)
  | unknownEntry (id : Int)
  | noChunk
  | frameOverflow (limit : Nat)
  | instructionLimit
  | invalidOpcode (code : UInt8)
  | other (text : Bytes)
deriving DecidableEq, Repr

namespace Cause

/-- Causes that differ only in particulars are of one family. -/
inductive Family where
  | unbound
  | unknownProcedure
  | notProcedure
  | arity
  | typeMismatch
  | stackUnderflow
  | pendingReference
  | unknownChunk
  | frameOverflow
  | instructionLimit
  | invalidOpcode
  | other
deriving DecidableEq, Repr

def family : Cause → Family
  | unbound _ => .unbound
  | unknownProcedure _ => .unknownProcedure
  | notProcedure _ => .notProcedure
  | arity .. => .arity
  | typeMismatch _ => .typeMismatch
  | stackUnderflow | callUnderflow .. => .stackUnderflow
  | lookupWhilePending .. | loadWithoutLookup | callWithoutLookup | unusedReference _ =>
    .pendingReference
  | unknownChunk _ | unknownEntry _ | noChunk => .unknownChunk
  | frameOverflow _ => .frameOverflow
  | instructionLimit => .instructionLimit
  | invalidOpcode _ => .invalidOpcode
  | other _ => .other

def Family.summary : Family → Bytes
  | unbound => ascii "unbound identifier"
  | unknownProcedure => ascii "unknown procedure"
  | notProcedure => ascii "not a procedure"
  | arity => ascii "arity mismatch"
  | typeMismatch => ascii "type mismatch"
  | stackUnderflow => ascii "stack underflow"
  | pendingReference => ascii "pending reference protocol violated"
  | unknownChunk => ascii "unknown chunk"
  | frameOverflow => ascii "chunk nesting too deep"
  | instructionLimit => ascii "instruction limit exceeded"
  | invalidOpcode => ascii "invalid opcode"
  | other => []

/-- The particulars, where a cause has any. -/
def detail? : Cause → Option Bytes
  | unbound name | unknownProcedure name | notProcedure name => some name
  | arity name expected got =>
    some (name ++ ascii " expects " ++ Text.signedDecimal expected ++ ascii " args, got " ++
      Text.signedDecimal got)
  | typeMismatch detail => some detail
  | callUnderflow name needed held =>
    some (name ++ ascii " needs " ++ Text.signedDecimal needed ++ ascii " args, frame has " ++
      Text.decimal held)
  | lookupWhilePending name pending =>
    some (ascii "lookup of " ++ name ++ ascii " while " ++ pending ++
      ascii " is pending")
  | loadWithoutLookup => some (ascii "load without a preceding lookup")
  | callWithoutLookup => some (ascii "call without a preceding lookup")
  | unusedReference name => some (ascii "reference " ++ name ++ ascii " never consumed")
  | unknownChunk id => some (Text.signedDecimal id)
  | unknownEntry id => some (ascii "entry " ++ Text.signedDecimal id)
  | noChunk => some (ascii "nil chunk")
  | frameOverflow limit => some (ascii "limit " ++ Text.decimal limit)
  | invalidOpcode code => some (Text.decimal code.toNat)
  | stackUnderflow | instructionLimit | other _ => none

def message (c : Cause) : Bytes :=
  match c, c.detail? with
  | other text, _ => text
  | _, some detail => c.family.summary ++ ascii ": " ++ detail
  | _, none => c.family.summary

end Cause

/-- The stack lists the open frames, innermost first. -/
structure RunError where
  cause : Cause
  site : Site
  stack : List Site
deriving DecidableEq, Repr

def RunError.message (e : RunError) : Bytes :=
  e.site.locate e.cause.message

end MiniScheme
