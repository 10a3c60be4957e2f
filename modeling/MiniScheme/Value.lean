import MiniScheme.Text.Bytes

/-! Values of the language. -/
namespace MiniScheme

/-- The evaluator itself makes neither a `hollow` pair, which has no parts, nor a value of an
`unknown` kind; a host may bind both. A character is any integer, code point or not. -/
inductive Value where
  | null
  | eof
  | boolean (b : Bool)
  | number (n : UInt64)
  | string (text : Bytes)
  | symbol (text : Bytes)
  | char (code : Int)
  | bytes (content : Bytes)
  | pair (left right : Value)
  | hollow
  | unknown (kind : Int)
deriving DecidableEq, Repr, Inhabited

namespace Value

/-- The list of the values, ending in `tail`. -/
def list (values : List Value) (tail : Value := null) : Value :=
  values.foldr pair tail

/-- Only `#f` counts as false. -/
def isTrue : Value → Bool
  | boolean b => b
  | _ => true

def typeName : Value → Bytes
  | null => ascii "null"
  | eof => ascii "eof"
  | boolean _ => ascii "boolean"
  | number _ => ascii "number"
  | string _ => ascii "string"
  | symbol _ => ascii "symbol"
  | char _ => ascii "char"
  | bytes _ => ascii "bytevector"
  | pair _ _ | hollow => ascii "pair"
  | unknown _ => ascii "unknown"

/-- Equality of the language. A value of an unknown kind equals nothing, not even itself. -/
def equal : Value → Value → Bool
  | null, null | eof, eof | hollow, hollow => true
  | boolean a, boolean b => a == b
  | number a, number b => a == b
  | string a, string b => a == b
  | symbol a, symbol b => a == b
  | char a, char b => a == b
  | bytes a, bytes b => a == b
  | pair a b, pair c d => equal a c && equal b d
  | _, _ => false

/-- A value built anew from the parts of another. -/
def copy : Value → Value
  | pair left right => pair left.copy right.copy
  | v => v

end Value

end MiniScheme
