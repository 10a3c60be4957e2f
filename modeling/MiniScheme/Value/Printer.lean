import MiniScheme.Text.Quoted
import MiniScheme.Value

/-! The text of values, in two styles. A value with a hollow pair in it has no text. -/
namespace MiniScheme.Value

/-- Writing marks strings and characters as such, displaying gives their bare text. -/
inductive Style where
  | written
  | displayed
deriving DecidableEq, Repr

/-- The text of a value that is no pair. -/
def atomText (style : Style) : Value → Bytes
  | null => ascii "()"
  | eof => ascii "#<eof>"
  | boolean true => ascii "#t"
  | boolean false => ascii "#f"
  | number n => Text.decimal n.toNat
  | string text =>
    match style with
    | .written => Text.quote text
    | .displayed => text
  | symbol text => text
  | char code =>
    match style with
    | .written => ascii "#\\" ++ Text.encode (Text.charOf code)
    | .displayed => Text.encode (Text.charOf code)
  | bytes content =>
    ascii "#u8(" ++ Bytes.join (ascii " ") (content.map fun b => Text.decimal b.toNat) ++
      ascii ")"
  | unknown kind => ascii "#<unknown " ++ Text.signedDecimal kind ++ ascii ">"
  | pair _ _ | hollow => []

mutual

def render (style : Style) : Value → Option Bytes
  | pair left right => do
    let head ← render style left
    let tail ← renderTail style right
    some (ascii "(" ++ head ++ tail)
  | hollow => none
  | v => some (atomText style v)

/-- The rest of a list after an element, closing bracket included. -/
def renderTail (style : Style) : Value → Option Bytes
  | null => some (ascii ")")
  | pair left right => do
    let head ← render style left
    let tail ← renderTail style right
    some (ascii " " ++ head ++ tail)
  | hollow => none
  | v => some (ascii " . " ++ atomText style v ++ ascii ")")

end

def write? (v : Value) : Option Bytes :=
  v.render .written

def display? (v : Value) : Option Bytes :=
  v.render .displayed

end MiniScheme.Value
