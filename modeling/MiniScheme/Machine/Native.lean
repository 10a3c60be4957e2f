import MiniScheme.Code.Listing
import MiniScheme.Machine.Basic

/-! Native procedures, and the tables that hold them. -/
namespace MiniScheme

/-- How a native procedure ends. A cause is reported at the calling frame; an error of a run inside
the procedure is passed on as it is. -/
inductive Reply where
  | value (v : Value)
  | refused (cause : Cause)
  | failed (e : RunError)
  | crashed

/-- A native procedure sees the machine that calls it, gets its arguments in call order, and
changes only the console. -/
abbrev Handler := Machine → List Value → Console × Reply

structure Native where
  name : Bytes
  arity : Int
  handler : Handler

/-- Three tables: the procedures offered by name, those the machine can call, and the signatures
that listings show. -/
structure Registry where
  catalogue : List Native := []
  callable : List Native := []
  signatures : Listing.Signatures := []

namespace Registry

inductive Refusal where
  | withoutHandler (name : Bytes)
  | withoutName
  | taken (name : Bytes)
  | noHandler
deriving DecidableEq, Repr

def Refusal.message : Refusal → Bytes
  | withoutHandler name => ascii "native " ++ name ++ ascii " has nil handler"
  | withoutName => ascii "native with empty name"
  | taken name => ascii "native " ++ name ++ ascii " already registered"
  | noHandler => ascii "nil native handler"

def lookup? (natives : List Native) (name : Bytes) : Option Native :=
  natives.find? fun n => n.name = name

/-- The procedure the machine calls by a name. -/
def callable? (r : Registry) (name : Bytes) : Option Native :=
  lookup? r.callable name

def registerCallable (r : Registry) (name : Bytes) (arity : Int) (handler : Option Handler) :
    Registry × Option Refusal :=
  match handler with
  | none => (r, some .noHandler)
  | some handler =>
    if (r.callable? name).isSome then (r, some (.taken name))
    else ({ r with callable := r.callable ++ [⟨name, arity, handler⟩] }, none)

def registerSignature (r : Registry) (name : Bytes) (arity : Int) : Registry × Option Refusal :=
  if (r.signatures.lookup name).isSome then (r, some (.taken name))
  else ({ r with signatures := r.signatures ++ [(name, arity)] }, none)

/-- Enters a procedure in all three tables, one after the other. A table that refuses stops the
registration; what the tables before it have taken stays. -/
def register (r : Registry) (name : Bytes) (arity : Int) (handler : Option Handler) :
    Registry × Option Refusal :=
  match handler with
  | none => (r, some (.withoutHandler name))
  | some handler =>
    if name = [] then (r, some .withoutName)
    else if (lookup? r.catalogue name).isSome then (r, some (.taken name))
    else
      let r : Registry := { r with catalogue := r.catalogue ++ [⟨name, arity, handler⟩] }
      match r.registerCallable name arity (some handler) with
      | (r, some refusal) => (r, some refusal)
      | (r, none) => r.registerSignature name arity

/-- Enters procedures one by one; those refused are passed over. -/
def registerAll (r : Registry) (natives : List Native) : Registry :=
  natives.foldl (fun r n => (r.register n.name n.arity (some n.handler)).1) r

/-- The procedures offered by name, in the order of their names. -/
def offered (r : Registry) : List Native :=
  r.catalogue.mergeSort fun a b => decide (a.name ≤ b.name)

end Registry

end MiniScheme
