import MiniScheme.Value.Printer

/-! Instructions. -/
namespace MiniScheme

/-- A lookup names the variable or procedure that the next `load` or `call` is about. -/
inductive Op where
  | push (chunk : Int)
  | immediate (value : Value)
  | load
  | define (name : Bytes)
  | lookup (name : Bytes)
  | call (arity : Int)
  | invalid (code : UInt8)
deriving DecidableEq, Repr

namespace Op

/-- The instruction of a numeric code, with empty operands. -/
def ofCode (code : UInt8) : Op :=
  match code.toNat with
  | 0 => push 0
  | 1 => immediate .null
  | 2 => load
  | 3 => define []
  | 4 => lookup []
  | 5 => call 0
  | _ => invalid code

def mnemonic : Op → Bytes
  | push _ => ascii "OP_PUSH"
  | immediate _ => ascii "OP_LOAD_IMMEDIATE"
  | load => ascii "OP_LOAD_VARIABLE"
  | define _ => ascii "OP_DEFINE"
  | lookup _ => ascii "OP_LOOKUP"
  | call _ => ascii "OP_CALL"
  | invalid _ => ascii "OP_UNKNOWN"

/-- Replaces the text of a value that has none. -/
def unprintable : Bytes :=
  ascii ("%!s(PANIC=String method: runtime error: " ++
    "invalid memory address or nil pointer dereference)")

def withOperand (name : String) (operand : Bytes) : Bytes :=
  ascii name ++ ascii "(" ++ operand ++ ascii ")"

/-- An instruction with its operand, on one line. -/
def text : Op → Bytes
  | push chunk => withOperand "Push" (Text.signedDecimal chunk)
  | immediate value => withOperand "LoadImmediate" (value.write?.getD unprintable)
  | load => ascii "LoadVariable"
  | define name => withOperand "Define" name
  | lookup name => withOperand "Lookup" name
  | call arity => withOperand "Call" (Text.signedDecimal arity)
  | invalid code => (invalid code).mnemonic

end Op

end MiniScheme
