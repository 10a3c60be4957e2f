import MiniScheme.Text.Letter
import MiniScheme.Token

/-! Reading tokens off a source text, one at a time. Every character of the source belongs to
exactly one token, blanks included. -/
namespace MiniScheme

inductive LexError where
  | unexpectedChar (pos : Position) (char : Char)
  | unexpectedEnd (pos : Position)
  | integerOverflow (pos : Position) (text : Bytes)
deriving DecidableEq, Repr

namespace LexError

def pos : LexError → Position
  | unexpectedChar pos _ => pos
  | unexpectedEnd pos => pos
  | integerOverflow pos _ => pos

/-- The kind of an error, without its position and details. -/
def summary : LexError → Bytes
  | unexpectedChar .. => ascii "unexpected character"
  | unexpectedEnd _ => ascii "unexpected end of input"
  | integerOverflow .. => ascii "integer literal out of range"

def message (e : LexError) : Bytes :=
  e.pos.text ++ ascii ": " ++ e.summary ++
    match e with
    | unexpectedChar _ char => ascii " " ++ Text.quoteChar char
    | unexpectedEnd _ => []
    | integerOverflow _ text => ascii ": " ++ text

/-- More text could follow where the source ended. -/
def isIncomplete : LexError → Bool
  | unexpectedEnd _ => true
  | _ => false

end LexError

namespace Token

/-- The blanks of the language, fewer than those of `Text.isBlank`. -/
def isSpace (c : Char) : Bool :=
  c = ' ' || c = '\t' || c = '\r' || c = '\n'

def isInitial (c : Char) : Bool :=
  Text.isLetter c || "!$%&*/:<=>?^_~+-".toList.contains c

def isSubsequent (c : Char) : Bool :=
  isInitial c || Text.isDigit c || c = '.' || c = '@'

/-- The byte that an escape denotes, by the character after the backslash. -/
def unescape? : Char → Option UInt8
  | '"' => some 0x22
  | '\\' => some 0x5C
  | 'n' => some 0x0A
  | 'r' => some 0x0D
  | 't' => some 0x09
  | _ => none

end Token

/-- The rest of a source, and the position where it starts. -/
structure Cursor where
  pos : Position
  rest : List Text.Glyph
deriving DecidableEq, Repr

namespace Cursor

def start (source : Bytes) : Cursor :=
  ⟨{}, Text.glyphs source⟩

/-- The outcome of reading one token. A fault leaves no new cursor: reading again at the same
cursor finds the same fault. -/
inductive Scan where
  | token (t : Token) (next : Cursor)
  | fault (e : LexError)
  | finished
deriving DecidableEq, Repr

/-- The characters from the front on that satisfy `p`, as one lexeme. -/
def run (c : Cursor) (p : Char → Bool) : List Text.Glyph :=
  c.rest.takeWhile fun g => p g.char

/-- The cursor after a lexeme at its front. -/
def skip (c : Cursor) (lexeme : List Text.Glyph) : Cursor :=
  ⟨c.pos.after lexeme, c.rest.drop lexeme.length⟩

/-- A token spelt exactly as the lexeme at the front. -/
def emit (c : Cursor) (kind : Token.Kind) (lexeme : List Text.Glyph) : Scan :=
  .token ⟨kind, Text.spelling lexeme, c.pos⟩ (c.skip lexeme)

/-- The text of a string up to its closing quote, and the cursor after that quote. A byte that is
no character becomes the replacement character. -/
def readString (pos : Position) : List Text.Glyph → Except LexError (Bytes × Cursor)
  | [] => .error (.unexpectedEnd pos)
  | g :: rest =>
    if g.char = '"' then .ok ([], ⟨pos.step g, rest⟩)
    else if g.char = '\\' then
      match rest with
      | [] => .error (.unexpectedEnd (pos.step g))
      | e :: rest =>
        match Token.unescape? e.char with
        | none => .error (.unexpectedChar (pos.step g) e.char)
        | some b => do
          let (text, next) ← readString ((pos.step g).step e) rest
          .ok (b :: text, next)
    else do
      let (text, next) ← readString (pos.step g) rest
      .ok (Text.encode g.char ++ text, next)

/-- The token at the front. -/
def next (c : Cursor) : Scan :=
  match c.rest with
  | [] => .finished
  | g :: rest =>
    if g.char = '(' then c.emit .opening [g]
    else if g.char = ')' then c.emit .closing [g]
    else if g.char = '#' then
      match rest with
      | [] => .fault (.unexpectedEnd (c.pos.step g))
      | t :: _ =>
        if t.char = 't' then c.emit (.boolean true) [g, t]
        else if t.char = 'f' then c.emit (.boolean false) [g, t]
        else .fault (.unexpectedChar (c.pos.step g) t.char)
    else if g.char = '"' then
      match readString (c.pos.step g) rest with
      | .error e => .fault e
      | .ok (text, next) => .token ⟨.string, text, c.pos⟩ next
    else if Token.isSpace g.char then c.emit .blank (c.run Token.isSpace)
    else if Token.isInitial g.char then c.emit .identifier (c.run Token.isSubsequent)
    else if Text.isDigit g.char then
      let lexeme := c.run Text.isDigit
      let n := Text.ofDigits (lexeme.map (·.char))
      if n < UInt64.size then c.emit (.integer n.toUInt64) lexeme
      else .fault (.integerOverflow c.pos (Text.spelling lexeme))
    else .fault (.unexpectedChar c.pos g.char)

end Cursor

end MiniScheme
