import MiniScheme.Expr
import MiniScheme.Machine.Step
import MiniScheme.Proofs.Native.Contract

/-! A tree evaluator, by recursion on the trees and over a list of bindings. -/
namespace MiniScheme

/-- What a program can change: its bindings, latest first, and the texts it has written. -/
structure Store where
  bindings : List (Bytes × Value)
  out : Array Bytes

namespace Store

def globals (st : Store) : Globals :=
  .ofList st.bindings

theorem find?_globals (st : Store) (name : Bytes) :
    st.globals.find? name = st.bindings.lookup name :=
  Globals.find?_ofList st.bindings name

end Store

abbrev Evaluated (α : Type) := Store × Except Failure α

namespace Evaluated

variable {α β : Type}

def andThen (r : Evaluated α) (f : α → Store → Evaluated β) : Evaluated β :=
  match r with
  | (st, .ok a) => f a st
  | (st, .error failure) => (st, .error failure)

theorem andThen_assoc {γ : Type} (r : Evaluated α) (f : α → Store → Evaluated β)
    (g : β → Store → Evaluated γ) :
    (r.andThen f).andThen g = r.andThen fun a st => (f a st).andThen g := by
  obtain ⟨st, result⟩ := r
  cases result with
  | error failure => rfl
  | ok a => rfl

/-- The globals are solid, and `P` holds of the result, if there is one. -/
def Keeps (P : α → Prop) (r : Evaluated α) : Prop :=
  r.1.globals.isSolid ∧ ∀ a, r.2 = .ok a → P a

theorem Keeps.ok {P : α → Prop} {a : α} {st : Store} (ha : P a) (hst : st.globals.isSolid) :
    Keeps P (st, .ok a) :=
  ⟨hst, fun _ h => by cases h; exact ha⟩

theorem Keeps.error {P : α → Prop} {failure : Failure} {st : Store} (hst : st.globals.isSolid) :
    Keeps P (st, .error failure) :=
  ⟨hst, fun _ h => by cases h⟩

theorem Keeps.andThen {P : α → Prop} {Q : β → Prop} {r : Evaluated α}
    {f : α → Store → Evaluated β} (hr : r.Keeps P)
    (hf : ∀ a st, P a → st.globals.isSolid → (f a st).Keeps Q) : (r.andThen f).Keeps Q := by
  obtain ⟨st, result⟩ := r
  cases result with
  | error failure => exact .error hr.1
  | ok a => exact hf a st (hr.2 a rfl) hr.1

end Evaluated

namespace Context

/-- Applies a native procedure on a machine without trace and log. -/
def respond (ctx : Context) (native : Native) (args : List Value) (st : Store) :
    Evaluated Value :=
  let m : Machine :=
    { ctx.toSettings with
      globals := st.globals, program := ctx.program, console := { out := st.out } }
  let r := native.handler m args
  ({ st with out := r.1.out }, r.2.result)

/-- Applies the procedure of a name. A native procedure shadows a global of the same name, and a
global is never a procedure. -/
def applyNamed (ctx : Context) (name : Bytes) (args : List Value) (st : Store) :
    Evaluated Value :=
  match ctx.natives.callable? name with
  | some native =>
    if args.length = native.arity then ctx.respond native args st
    else (st, .error (.refused (.arity name native.arity args.length)))
  | none =>
    if (st.bindings.lookup name).isSome then (st, .error (.refused (.notProcedure name)))
    else (st, .error (.refused (.unknownProcedure name)))

end Context

namespace Expr

mutual

/-- The value of a tree at a nesting depth. A tree that is nested too deeply is not evaluated, and
one with a foreign part has no value. -/
def evaluate (ctx : Context) (depth : Nat) (e : Expr) (st : Store) : Evaluated Value :=
  if ctx.maxFrames < depth then (st, .error (.refused (.frameOverflow ctx.maxFrames)))
  else
    match e with
    | empty _ => (st, .ok .null)
    | static v _ => (st, .ok v)
    | reference name _ =>
      match st.bindings.lookup name with
      | some v => (st, .ok v)
      | none => (st, .error (.refused (.unbound name)))
    | define name body _ =>
      (evaluate ctx (depth + 1) body st).andThen fun v st =>
        ({ st with bindings := (name, v) :: st.bindings }, .ok .null)
    | call name args _ => (evaluateArgs ctx (depth + 1) args st).andThen (ctx.applyNamed name)
    | foreign .. | missing => (st, .error .crashed)

def evaluateArgs (ctx : Context) (depth : Nat) (args : List Expr) (st : Store) :
    Evaluated (List Value) :=
  match args with
  | [] => (st, .ok [])
  | arg :: args =>
    (evaluate ctx depth arg st).andThen fun v st =>
      (evaluateArgs ctx depth args st).andThen fun vs st => (st, .ok (v :: vs))

end

/-- Evaluates top-level forms up to the first failure; `last` is the value so far. -/
def evaluateForms (ctx : Context) (last : Value) : List Expr → Store → Evaluated Value
  | [], st => (st, .ok last)
  | form :: forms, st =>
    (form.evaluate ctx 1 st).andThen fun v st => evaluateForms ctx v forms st

mutual

def isSolid : Expr → Bool
  | static v _ => v.isSolid
  | define _ body _ => body.isSolid
  | call _ args _ => areSolid args
  | empty _ | reference .. | foreign .. | missing => true

def areSolid : List Expr → Bool
  | [] => true
  | e :: es => e.isSolid && areSolid es

end

end Expr

namespace Context

variable {ctx : Context}

theorem respond_keeps {native : Native} (hk : native.KeepsSolid) {args : List Value} {st : Store}
    (hargs : ∀ v ∈ args, v.isSolid) (hst : st.globals.isSolid)
    (ha : args.length = native.arity) :
    (ctx.respond native args st).Keeps fun v => v.isSolid := by
  constructor
  · exact hst
  · intro v hv
    exact hk _ args v ⟨hst, hargs, ha⟩ (Reply.result_eq_ok_iff.1 hv)

theorem applyNamed_keeps (hn : ∀ n ∈ ctx.natives.callable, n.KeepsSolid) (name : Bytes)
    {args : List Value} {st : Store} (hargs : ∀ v ∈ args, v.isSolid) (hst : st.globals.isSolid) :
    (ctx.applyNamed name args st).Keeps fun v => v.isSolid := by
  unfold applyNamed
  split
  · rename_i native hnative
    split
    · rename_i ha
      exact respond_keeps (hn native (Registry.mem_of_callable? hnative)) hargs hst ha
    · exact .error hst
  · split
    · exact .error hst
    · exact .error hst

end Context

namespace Expr

variable {ctx : Context}

mutual

/-- The value of a tree of solid values is solid, and so are its bindings. -/
theorem evaluate_keeps (hn : ∀ n ∈ ctx.natives.callable, n.KeepsSolid) (e : Expr) (depth : Nat)
    {st : Store} (he : e.isSolid) (hst : st.globals.isSolid) :
    (e.evaluate ctx depth st).Keeps fun v => v.isSolid := by
  rw [evaluate.eq_def]
  split
  · exact .error hst
  · cases e with
    | empty pos => exact .ok rfl hst
    | static v pos => exact .ok he hst
    | reference name pos =>
      dsimp only
      split
      · rename_i v hv
        rw [← st.find?_globals] at hv
        exact .ok (Globals.isSolid_of_find? hst hv) hst
      · exact .error hst
    | define name body pos =>
      refine (evaluate_keeps hn body (depth + 1) he hst).andThen ?_
      intro v st hv hst
      exact .ok rfl (Globals.isSolid_bind hst hv)
    | call name args pos =>
      refine (evaluateArgs_keeps hn args (depth + 1) he hst).andThen ?_
      intro vs st hvs hst
      exact Context.applyNamed_keeps hn name hvs hst
    | foreign typeName pos => exact .error hst
    | missing => exact .error hst

theorem evaluateArgs_keeps (hn : ∀ n ∈ ctx.natives.callable, n.KeepsSolid) (args : List Expr)
    (depth : Nat) {st : Store} (hargs : areSolid args) (hst : st.globals.isSolid) :
    (evaluateArgs ctx depth args st).Keeps fun vs => ∀ v ∈ vs, v.isSolid := by
  rw [evaluateArgs.eq_def]
  cases args with
  | nil => exact .ok (List.forall_mem_nil _) hst
  | cons arg args =>
    obtain ⟨harg, hrest⟩ := Bool.and_eq_true_iff.1 hargs
    refine (evaluate_keeps hn arg depth harg hst).andThen ?_
    intro v st hv hst
    refine (evaluateArgs_keeps hn args depth hrest hst).andThen ?_
    intro vs st hvs hst
    exact .ok (List.forall_mem_cons.2 ⟨hv, hvs⟩) hst

end

end Expr

end MiniScheme
