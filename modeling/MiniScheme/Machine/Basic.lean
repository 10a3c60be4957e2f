import MiniScheme.Code.Chunk
import MiniScheme.Machine.Console
import MiniScheme.Machine.Globals

/-! Machines between runs. -/
namespace MiniScheme

/-- A limit of zero means no limit. -/
structure Settings where
  maxFrames : Nat := 256
  limit : Nat := 0
  writer : Writer := .accepting

/-- The last three fields are what the last run left: its stack, top first, the sites of the frames
it left open, innermost first, and the number of instructions it began. -/
structure Machine extends Settings where
  globals : Globals := .empty
  program : Option Program := none
  console : Console := {}
  stack : List Value := []
  leftover : List Site := []
  executed : Nat := 0

namespace Machine

/-- A limit below zero is none. -/
def setLimit (m : Machine) (limit : Int) : Machine :=
  { m with limit := limit.toNat }

/-- A bound that is not positive restores the default. -/
def setMaxFrames (m : Machine) (bound : Int) : Machine :=
  { m with maxFrames := if bound ≤ 0 then 256 else bound.toNat }

def load (m : Machine) (program : Option Program) : Machine :=
  { m with program }

def define (m : Machine) (name : Bytes) (value : Value) : Machine :=
  { m with globals := m.globals.bind name value }

/-- Clears what the last run left. -/
def reset (m : Machine) : Machine :=
  { m with stack := [], leftover := [], executed := 0 }

/-- A machine with the same settings and bindings of its own. -/
def duplicate (m : Machine) : Machine :=
  { m.reset with globals := m.globals.copy }

end Machine

end MiniScheme
