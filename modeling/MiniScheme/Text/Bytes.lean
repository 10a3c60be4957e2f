/-! Byte strings. Source text, names and output are bytes, since none of them need be UTF-8. -/
namespace MiniScheme

abbrev Bytes := List UInt8

/-- The bytes of a text of ASCII characters, one byte each. -/
def ascii (text : String) : Bytes :=
  text.toList.map fun c => c.toNat.toUInt8

/-- The parts in order with `separator` between neighbours. -/
def Bytes.join (separator : Bytes) : List Bytes → Bytes
  | [] => []
  | [part] => part
  | part :: parts => part ++ separator ++ join separator parts

end MiniScheme
