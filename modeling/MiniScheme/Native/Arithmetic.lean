import MiniScheme.Machine.Native

/-! Arithmetic on natural numbers below 2^64, in words. A result outside that range is refused. -/
namespace MiniScheme.Native

/-- Applies `f` to two numbers, and refuses anything else. -/
def onNumbers (name : Bytes) (f : UInt64 → UInt64 → Reply) : Handler := fun m args =>
  let reply := match args with
    | [.number a, .number b] => f a b
    | [a, b] =>
      .refused (.typeMismatch (name ++ ascii " expects numbers, got " ++ a.typeName ++
        ascii " and " ++ b.typeName))
    | _ => .crashed
  (m.console, reply)

/-- A result of word arithmetic: one word, and what does not fit in it. -/
structure Wide where
  word : UInt64
  excess : UInt64
deriving DecidableEq, Repr

namespace Wide

/-- A sum and its carry. -/
def sum (a b : UInt64) : Wide :=
  let word := a + b
  ⟨word, if word < a then 1 else 0⟩

/-- A difference and its borrow. -/
def difference (a b : UInt64) : Wide :=
  ⟨a - b, if a < b then 1 else 0⟩

/-- The low and the high word of a product. -/
def product (a b : UInt64) : Wide :=
  ⟨a * b, (a.toNat * b.toNat / UInt64.size).toUInt64⟩

end Wide

/-- A result that must fit in one word; `complaint` says which end of the range it passed. -/
def inWord (name : Bytes) (complaint : String) (a b : UInt64) (result : Wide) : Reply :=
  if result.excess = 0 then .value (.number result.word)
  else
    .refused (.typeMismatch (name ++ ascii complaint ++ Text.decimal a.toNat ++
      ascii " " ++ name ++ ascii " " ++ Text.decimal b.toNat))

/-- A procedure of two numbers. -/
def binary (name : String) (f : Bytes → UInt64 → UInt64 → Reply) : Native :=
  ⟨ascii name, 2, onNumbers (ascii name) (f (ascii name))⟩

def add : Native :=
  binary "+" fun name a b => inWord name " overflows: " a b (.sum a b)

def subtract : Native :=
  binary "-" fun name a b => inWord name " underflows: " a b (.difference a b)

def multiply : Native :=
  binary "*" fun name a b => inWord name " overflows: " a b (.product a b)

def equals : Native :=
  binary "=" fun _ a b => .value (.boolean (a == b))

def less : Native :=
  binary "<" fun _ a b => .value (.boolean (a < b))

def arithmetic : List Native :=
  [add, subtract, multiply, equals, less]

end MiniScheme.Native
