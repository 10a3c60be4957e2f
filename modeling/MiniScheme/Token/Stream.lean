import MiniScheme.Token.Lexer

/-! Streams of tokens. A stream is the cursor it has reached and, once it has come to its end, what
it found there; several streams over one source start alike and know nothing of each other. -/
namespace MiniScheme

/-- What a stream delivers before it ends. -/
inductive Item where
  | token (t : Token)
  | fault (e : LexError)
deriving DecidableEq, Repr

namespace Item

def token? : Item → Option Token
  | token t => some t
  | fault _ => none

def fault? : Item → Option LexError
  | token _ => none
  | fault e => some e

end Item

namespace Cursor

/-- Up to `count` items, fewer at the end of the source or after a lexical error. -/
def take : (count : Nat) → Cursor → List Item × Cursor
  | 0, c => ([], c)
  | count + 1, c =>
    match c.next with
    | .finished => ([], c)
    | .fault e => ([.fault e], c)
    | .token t next =>
      let (items, last) := next.take count
      (.token t :: items, last)

/-- All items that are left. Every token takes at least one character, so the count suffices. -/
def all (c : Cursor) : List Item × Cursor :=
  c.take (c.rest.length + 1)

/-- The remaining tokens and the lexical error after them, if any. -/
def collect (c : Cursor) : (List Token × Option LexError) × Cursor :=
  let (items, last) := c.all
  ((items.filterMap Item.token?, items.findSome? Item.fault?), last)

end Cursor

/-- The tokens of a source, up to the first lexical error. -/
def tokenize (source : Bytes) : List Token × Option LexError :=
  (Cursor.start source).collect.1

/-- Why a stream delivers no more tokens. -/
inductive Stop where
  | finished
  | fault (e : LexError)
deriving DecidableEq, Repr

namespace Stop

def fault? : Stop → Option LexError
  | finished => none
  | fault e => some e

/-- What an iteration yields after the last token. -/
def items : Stop → List Item
  | finished => []
  | fault e => [.fault e]

end Stop

/-- A stream that has stopped does not look at the source any more: it reports its stop again. -/
structure Stream where
  cursor : Cursor
  stop : Option Stop := none
deriving DecidableEq, Repr

namespace Stream

def ofSource (source : Bytes) : Stream :=
  { cursor := .start source }

/-- The next token, or why there is none. -/
def next (s : Stream) : Except Stop Token × Stream :=
  match s.stop with
  | some stop => (.error stop, s)
  | none =>
    match s.cursor.next with
    | .finished => (.error .finished, { s with stop := some .finished })
    | .fault e => (.error (.fault e), { s with stop := some (.fault e) })
    | .token t cursor => (.ok t, { s with cursor })

/-- The items of an iteration that is broken off after `count` of them. -/
def take : (count : Nat) → Stream → List Item × Stream
  | 0, s => ([], s)
  | count + 1, s =>
    match s.next with
    | (.error stop, last) => (stop.items, last)
    | (.ok t, rest) =>
      let (items, last) := rest.take count
      (.token t :: items, last)

/-- The items of an iteration up to its end. -/
def all (s : Stream) : List Item × Stream :=
  s.take (s.cursor.rest.length + 1)

/-- The remaining tokens and the lexical error after them, if any. -/
def collect (s : Stream) : (List Token × Option LexError) × Stream :=
  let (items, last) := s.all
  ((items.filterMap Item.token?, items.findSome? Item.fault?), last)

end Stream

end MiniScheme
