import MiniScheme.Text.Bytes

/-! Numerals: decimal and hexadecimal text of numbers, and the value of a run of digits. -/
namespace MiniScheme.Text

/-- The digits of `n` in `base`, most significant first, letters in lower case. -/
def digits (base n : Nat) : Bytes :=
  (Nat.toDigits base n).map fun c => c.toNat.toUInt8

def decimal (n : Nat) : Bytes :=
  digits 10 n

/-- Decimal with a leading minus sign below zero. -/
def signedDecimal : Int → Bytes
  | .ofNat n => decimal n
  | .negSucc n => 0x2D :: decimal (n + 1)

/-- Hexadecimal with leading zeros up to `width` digits. -/
def hexadecimal (width n : Nat) : Bytes :=
  let ds := digits 16 n
  List.replicate (width - ds.length) 0x30 ++ ds

def isDigit (c : Char) : Bool :=
  '0' ≤ c && c ≤ '9'

/-- The number that a run of decimal digits denotes. -/
def ofDigits (ds : List Char) : Nat :=
  ds.foldl (fun n c => 10 * n + (c.toNat - '0'.toNat)) 0

end MiniScheme.Text
