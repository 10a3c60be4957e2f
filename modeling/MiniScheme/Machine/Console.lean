import MiniScheme.Code.Op
import MiniScheme.Machine.Error

/-! What a running program leaves behind besides values: output, trace and log. -/
namespace MiniScheme

/-- A writer of output, as a function of all the texts it has been given: the error with which it
refuses the last of them, if it does. -/
structure Writer where
  refusal? : Array Bytes → Option Bytes

namespace Writer

def accepting : Writer :=
  ⟨fun _ => none⟩

/-- Accepts a number of texts and refuses the rest. -/
def limited (capacity : Nat) : Writer :=
  ⟨fun given => if given.size ≤ capacity then none else some (ascii "write refused")⟩

/-- The texts that were not refused, in order. -/
def accepted (w : Writer) (given : Array Bytes) : Array Bytes :=
  (given.foldl (fun (seen, kept) text =>
    let seen := seen.push text
    (seen, if (w.refusal? seen).isNone then kept.push text else kept)) (#[], #[])).2

end Writer

/-- An instruction about to be carried out. -/
structure TraceEvent where
  site : Site
  depth : Nat
  op : Op
deriving DecidableEq, Repr

inductive LogEvent where
  | pushFrame (chunk : Int) (depth : Nat)
  | popFrame (chunk : Int) (depth discarded : Nat)
  | defineGlobal (name value : Bytes)
deriving DecidableEq, Repr

namespace LogEvent

def message : LogEvent → Bytes
  | pushFrame .. => ascii "push chunk frame"
  | popFrame .. => ascii "pop chunk frame"
  | defineGlobal .. => ascii "define global"

/-- The attributes of an event, in order. -/
def fields : LogEvent → List (Bytes × Bytes)
  | pushFrame chunk depth =>
    [(ascii "chunk", Text.signedDecimal chunk), (ascii "depth", Text.decimal depth)]
  | popFrame chunk depth discarded =>
    [(ascii "chunk", Text.signedDecimal chunk), (ascii "depth", Text.decimal depth),
      (ascii "discarded", Text.decimal discarded)]
  | defineGlobal name value => [(ascii "name", name), (ascii "value", value)]

end LogEvent

/-- The texts given to the writer, and the events, kept only where tracing or logging is on. -/
structure Console where
  out : Array Bytes := #[]
  trace : Option (Array TraceEvent) := none
  log : Option (Array LogEvent) := none
deriving DecidableEq

namespace Console

def traced (c : Console) (event : TraceEvent) : Console :=
  { c with trace := c.trace.map (·.push event) }

def logged (c : Console) (event : LogEvent) : Console :=
  { c with log := c.log.map (·.push event) }

end Console

end MiniScheme
