import MiniScheme.Text.Bytes

/-! UTF-8. Decoding never fails: a byte that starts no well-formed sequence is read alone, as the
replacement character. -/
namespace MiniScheme.Text

/-- What a lead byte announces: the length of its sequence, the modulus that leaves the bits it
carries itself, and the least code point that needs this length. -/
structure Layout where
  length : Nat
  modulus : Nat
  least : Nat

/-- `none` for a byte that cannot start a sequence. -/
def Layout.of? (lead : UInt8) : Option Layout :=
  if lead < 0x80 then some ⟨1, 0x80, 0⟩
  else if lead < 0xC0 then none
  else if lead < 0xE0 then some ⟨2, 0x20, 0x80⟩
  else if lead < 0xF0 then some ⟨3, 0x10, 0x800⟩
  else if lead < 0xF8 then some ⟨4, 0x08, 0x10000⟩
  else none

def isContinuation (b : UInt8) : Bool :=
  0x80 ≤ b && b < 0xC0

def replacement : Char := Char.ofNat 0xFFFD

/-- A character together with the bytes it was read from. -/
structure Glyph where
  char : Char
  bytes : Bytes
deriving DecidableEq, Repr

/-- The well-formed sequence that starts with `lead`, if there is one: complete, shortest for its
code point, and not a surrogate. -/
def sequence? (lead : UInt8) (rest : Bytes) : Option Glyph := do
  let layout ← Layout.of? lead
  let tail := rest.take (layout.length - 1)
  let code := tail.foldl (fun n b => n * 64 + b.toNat % 64) (lead.toNat % layout.modulus)
  if tail.length + 1 = layout.length ∧ tail.all isContinuation ∧ layout.least ≤ code ∧
      code.isValidChar then
    some ⟨Char.ofNat code, lead :: tail⟩
  else none

/-- The first character of a non-empty text. -/
def firstGlyph (lead : UInt8) (rest : Bytes) : Glyph :=
  (sequence? lead rest).getD ⟨replacement, [lead]⟩

/-- Reading goes on after `skip` bytes that belong to the character read last. -/
def glyphsFrom : (skip : Nat) → Bytes → List Glyph
  | _, [] => []
  | skip + 1, _ :: rest => glyphsFrom skip rest
  | 0, lead :: rest =>
    let glyph := firstGlyph lead rest
    glyph :: glyphsFrom (glyph.bytes.length - 1) rest

/-- A text as characters, each with its own bytes. -/
def glyphs (text : Bytes) : List Glyph :=
  glyphsFrom 0 text

/-- The bytes that a run of characters was read from. -/
def spelling (gs : List Glyph) : Bytes :=
  gs.flatMap (·.bytes)

/-- Whether a text is valid UTF-8 throughout. -/
def isUtf8 (text : Bytes) : Bool :=
  (glyphs text).all fun g => !(g.char == replacement && g.bytes.length == 1)

/-- The UTF-8 sequence of a code point. -/
def encode (c : Char) : Bytes :=
  let n := c.toNat
  let continuation (unit : Nat) : UInt8 := (0x80 + n / unit % 64).toUInt8
  if n < 0x80 then [n.toUInt8]
  else if n < 0x800 then [(0xC0 + n / 64).toUInt8, continuation 1]
  else if n < 0x10000 then [(0xE0 + n / 0x1000).toUInt8, continuation 64, continuation 1]
  else [(0xF0 + n / 0x40000).toUInt8, continuation 0x1000, continuation 64, continuation 1]

/-- The character of a code point; the replacement character where there is none. -/
def charOf (code : Int) : Char :=
  if 0 ≤ code ∧ code.toNat.isValidChar then Char.ofNat code.toNat else replacement

end MiniScheme.Text
