import MiniScheme.Text.Bytes

/-! Integers as flags take them: a sign, a base given by a leading zero, and underscores between
digits. -/
namespace MiniScheme.Cli

inductive NumeralError where
  | malformed
  | outOfRange
deriving DecidableEq, Repr

def NumeralError.message : NumeralError → Bytes
  | malformed => ascii "parse error"
  | outOfRange => ascii "value out of range"

def underscore : UInt8 := 0x5F

/-- The value of a digit or letter, letters counting on from ten. -/
def digitValue? (b : UInt8) : Option Nat :=
  if 0x30 ≤ b ∧ b ≤ 0x39 then some (b.toNat - 0x30)
  else if 0x61 ≤ b ∧ b ≤ 0x7A then some (b.toNat - 0x61 + 10)
  else if 0x41 ≤ b ∧ b ≤ 0x5A then some (b.toNat - 0x41 + 10)
  else none

/-- The number that digits denote after `n`, underscores being skipped. Reading stops at the first
digit that is wrong or makes the number too large for 64 bits. -/
def readDigits (base n : Nat) : Bytes → Except NumeralError Nat
  | [] => .ok n
  | b :: rest =>
    if b = underscore then readDigits base n rest
    else
      match digitValue? b with
      | none => .error .malformed
      | some d =>
        if base ≤ d then .error .malformed
        else if UInt64.size ≤ n * base + d then .error .outOfRange
        else readDigits base (n * base + d) rest

/-- Every underscore follows a digit and is followed by one. -/
def isSeparated : (afterDigit : Bool) → Bytes → Bool
  | afterDigit, [] => afterDigit
  | afterDigit, b :: rest =>
    if b = underscore then afterDigit && isSeparated false rest else isSeparated true rest

/-- The base of a numeral without sign, whether a mark for it was read, and the digits. -/
def splitBase : Bytes → Nat × Bool × Bytes
  | 0x30 :: b :: c :: rest =>
    if b = 0x62 ∨ b = 0x42 then (2, true, c :: rest)
    else if b = 0x6F ∨ b = 0x4F then (8, true, c :: rest)
    else if b = 0x78 ∨ b = 0x58 then (16, true, c :: rest)
    else (8, true, b :: c :: rest)
  | 0x30 :: rest => (8, true, rest)
  | digits => (10, false, digits)

def readMagnitude (text : Bytes) : Except NumeralError Nat :=
  if text = [] then .error .malformed
  else do
    let (base, marked, digits) := splitBase text
    let n ← readDigits base 0 digits
    if digits.contains underscore && !isSeparated marked digits then .error .malformed else .ok n

/-- The 64-bit integer that a numeral denotes. -/
def readInteger (text : Bytes) : Except NumeralError Int := do
  let (negative, magnitude) := match text with
    | 0x2D :: rest => (true, rest)
    | 0x2B :: rest => (false, rest)
    | rest => (false, rest)
  let n ← readMagnitude magnitude
  if negative then
    if 0x8000000000000000 < n then .error .outOfRange else .ok (-n)
  else
    if 0x8000000000000000 ≤ n then .error .outOfRange else .ok n

end MiniScheme.Cli
