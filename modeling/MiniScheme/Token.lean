import MiniScheme.Position
import MiniScheme.Text.Quoted

/-! Tokens. A token keeps the text it was read from; what that text denotes is part of its kind. -/
namespace MiniScheme

namespace Token

/-- The lexer makes no token of kind `other`; a host that builds its own token list may. -/
inductive Kind where
  | opening
  | closing
  | blank
  | boolean (value : Bool)
  | identifier
  | integer (value : UInt64)
  | string
  | other (name : Bytes)
deriving DecidableEq, Repr

def Kind.name : Kind → Bytes
  | opening => ascii "OPEN"
  | closing => ascii "CLOSE"
  | blank => ascii "WHITESPACE"
  | boolean _ => ascii "BOOLEAN"
  | identifier => ascii "IDENT"
  | integer _ => ascii "INTEGER"
  | string => ascii "STRING"
  | other name => name

/-- The truth value a kind carries, false where it carries none. -/
def Kind.truth : Kind → Bool
  | boolean value => value
  | _ => false

/-- The number a kind carries, zero where it carries none. -/
def Kind.number : Kind → UInt64
  | integer value => value
  | _ => 0

end Token

/-- The literal of a string token is the text it denotes, without quotes and escapes. -/
structure Token where
  kind : Token.Kind
  literal : Bytes
  pos : Position
deriving DecidableEq, Repr

namespace Token

/-- The spelling used in messages: a blank is one space, a string is quoted. -/
def text (t : Token) : Bytes :=
  match t.kind with
  | .opening => ascii "("
  | .closing => ascii ")"
  | .blank => ascii " "
  | .boolean true => ascii "#t"
  | .boolean false => ascii "#f"
  | .string => Text.quote t.literal
  | .identifier | .integer _ | .other _ => t.literal

/-- The kind, with the spelling where the kind alone does not fix it. -/
def label (t : Token) : Bytes :=
  match t.kind with
  | .identifier | .integer _ | .string | .boolean _ =>
    t.kind.name ++ ascii "(" ++ t.text ++ ascii ")"
  | .opening | .closing | .blank | .other _ => t.kind.name

end Token

end MiniScheme
