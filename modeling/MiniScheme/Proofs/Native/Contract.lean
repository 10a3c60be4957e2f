import Mathlib.Data.List.Basic
import MiniScheme.Native.Standard
import MiniScheme.Proofs.Value.Solid

/-! Contracts of native procedures. The standard procedures are functions of their arguments that
reply or write a text, and meet all of them. -/
namespace MiniScheme

/-- Causes that indicate malformed code. -/
def Cause.isInternal (c : Cause) : Bool :=
  match c.family with
  | .stackUnderflow | .pendingReference | .unknownChunk | .invalidOpcode => true
  | _ => false

namespace Native

/-- A well-formed call: solid arguments, of the right number, and solid globals. -/
structure Called (n : Native) (m : Machine) (vs : List Value) : Prop where
  globals : m.globals.isSolid
  args : ∀ v ∈ vs, v.isSolid
  arity : (vs.length : Int) = n.arity

def KeepsSolid (n : Native) : Prop :=
  ∀ m args v, n.Called m args → (n.handler m args).2 = .value v → v.isSolid

def Replies (n : Native) : Prop :=
  ∀ m args, n.Called m args → (n.handler m args).2 ≠ .crashed

def ReportsOwn (n : Native) : Prop :=
  ∀ m args, n.Called m args →
    (∀ cause, (n.handler m args).2 = .refused cause → cause.isInternal = false) ∧
      ∀ e, (n.handler m args).2 = .failed e → e.cause.isInternal = false

/-- The procedure does not depend on the trace or the log. -/
def Unobservant (n : Native) : Prop :=
  ∀ (m : Machine) trace log args,
    let observed := { m with console := { m.console with trace, log } }
    (n.handler observed args).2 = (n.handler m args).2 ∧
      (n.handler observed args).1.out = (n.handler m args).1.out

/-- The procedure runs no code on the machine: it ignores the limit and preserves the trace. -/
structure Detached (n : Native) : Prop where
  limit : ∀ (m : Machine) limit args, n.handler { m with limit } args = n.handler m args
  trace : ∀ m args, (n.handler m args).1.trace = m.console.trace

def IgnoresProgram (n : Native) : Prop :=
  ∀ (m : Machine) program args, n.handler { m with program } args = n.handler m args

/-- The procedure ignores the loaded program and passes on no error of a nested run. -/
structure Aloof (n : Native) : Prop where
  program : n.IgnoresProgram
  reply : ∀ m args e, (n.handler m args).2 ≠ .failed e

end Native

theorem Registry.mem_of_callable? {r : Registry} {name : Bytes} {n : Native}
    (h : r.callable? name = some n) : n ∈ r.callable :=
  List.mem_of_find?_eq_some h

inductive Failure where
  | refused (cause : Cause)
  | failed (e : RunError)
  | crashed
deriving DecidableEq, Repr

def Reply.result : Reply → Except Failure Value
  | .value v => .ok v
  | .refused cause => .error (.refused cause)
  | .failed e => .error (.failed e)
  | .crashed => .error .crashed

theorem Reply.result_eq_ok_iff {r : Reply} {v : Value} : r.result = .ok v ↔ r = .value v := by
  cases r <;> simp [result]

theorem Reply.result_eq_failed_iff {r : Reply} {e : RunError} :
    r.result = .error (.failed e) ↔ r = .failed e := by
  cases r <;> simp [result]

/-- A solid value, or a cause that is not internal. -/
def Reply.isRegular : Reply → Bool
  | .value v => v.isSolid
  | .refused cause => !cause.isInternal
  | .failed e => !e.cause.isInternal
  | .crashed => false

namespace Native

inductive Action where
  | reply (r : Reply)
  | write (text : Option Bytes)

namespace Action

def perform (m : Machine) : Action → Console × Reply
  | reply r => (m.console, r)
  | write text => emit m text

def isRegular : Action → Bool
  | reply r => r.isRegular
  | write text => text.isSome

theorem isRegular_perform (m : Machine) {a : Action} (h : a.isRegular) :
    (a.perform m).2.isRegular := by
  cases a with
  | reply r => exact h
  | write text =>
    obtain ⟨text, rfl⟩ := Option.isSome_iff_exists.1 h
    simp only [perform, emit]
    split <;> rfl

theorem perform_ne_failed (m : Machine) {a : Action} {e : RunError} (h : a ≠ reply (.failed e)) :
    (a.perform m).2 ≠ .failed e := by
  cases a with
  | reply r => exact fun hr => h (congrArg reply hr)
  | write text =>
    cases text with
    | none => exact Reply.noConfusion
    | some text =>
      simp only [perform, emit]
      split <;> exact Reply.noConfusion

theorem perform_limit (m : Machine) (limit : Nat) (a : Action) :
    a.perform { m with limit } = a.perform m := by
  cases a with
  | reply r => rfl
  | write text => cases text <;> rfl

theorem perform_program (m : Machine) (program : Option Program) (a : Action) :
    a.perform { m with program } = a.perform m := by
  cases a with
  | reply r => rfl
  | write text => cases text <;> rfl

theorem perform_trace (m : Machine) (a : Action) : (a.perform m).1.trace = m.console.trace := by
  cases a with
  | reply r => rfl
  | write text =>
    cases text with
    | none => rfl
    | some text =>
      simp only [perform, emit]
      split <;> rfl

theorem perform_observed (m : Machine) (trace : Option (Array TraceEvent))
    (log : Option (Array LogEvent)) (a : Action) :
    let observed := { m with console := { m.console with trace, log } }
    (a.perform observed).2 = (a.perform m).2 ∧
      (a.perform observed).1.out = (a.perform m).1.out := by
  cases a with
  | reply r => exact ⟨rfl, rfl⟩
  | write text =>
    cases text with
    | none => exact ⟨rfl, rfl⟩
    | some text =>
      simp only [perform, emit]
      split <;> exact ⟨rfl, rfl⟩

end Action

/-- `n.Acts act`: the procedure computes the function `act` of its arguments, passes on no error,
and is regular on well-formed calls. -/
structure Acts (n : Native) (act : List Value → Action) : Prop where
  arity : 0 ≤ n.arity
  handler : ∀ m args, n.handler m args = (act args).perform m
  reply : ∀ args e, act args ≠ .reply (.failed e)
  regular : ∀ args : List Value, (∀ v ∈ args, v.isSolid) → args.length = n.arity →
    (act args).isRegular

/-- The contract that implies all the others. -/
def Plain (n : Native) : Prop :=
  ∃ act, n.Acts act

namespace Plain

variable {n : Native}

theorem arity (h : n.Plain) : 0 ≤ n.arity := by
  obtain ⟨act, hact⟩ := h
  exact hact.arity

theorem isRegular (h : n.Plain) {m : Machine} {args : List Value} (hc : n.Called m args) :
    (n.handler m args).2.isRegular := by
  obtain ⟨act, hact⟩ := h
  rw [hact.handler]
  exact Action.isRegular_perform m (hact.regular args hc.args hc.arity)

theorem keepsSolid (h : n.Plain) : n.KeepsSolid := by
  intro m args v hc hv
  have hr := h.isRegular hc
  rwa [hv] at hr

theorem replies (h : n.Plain) : n.Replies := by
  intro m args hc hv
  have hr := h.isRegular hc
  rw [hv] at hr
  cases hr

theorem reportsOwn (h : n.Plain) : n.ReportsOwn := by
  intro m args hc
  have hr := h.isRegular hc
  constructor
  · intro cause hv
    rw [hv] at hr
    simpa [Reply.isRegular] using hr
  · intro e hv
    rw [hv] at hr
    simpa [Reply.isRegular] using hr

theorem unobservant (h : n.Plain) : n.Unobservant := by
  obtain ⟨act, hact⟩ := h
  intro m trace log args
  dsimp only
  rw [hact.handler, hact.handler]
  exact Action.perform_observed m trace log (act args)

theorem detached (h : n.Plain) : n.Detached := by
  obtain ⟨act, hact⟩ := h
  constructor
  · intro m limit args
    rw [hact.handler, hact.handler, Action.perform_limit]
  · intro m args
    rw [hact.handler, Action.perform_trace]

theorem aloof (h : n.Plain) : n.Aloof := by
  obtain ⟨act, hact⟩ := h
  constructor
  · intro m program args
    rw [hact.handler, hact.handler, Action.perform_program]
  · intro m args e
    rw [hact.handler]
    exact Action.perform_ne_failed m (hact.reply args e)

end Plain

theorem plain_binary (name : String) {f : Bytes → UInt64 → UInt64 → Reply}
    (hr : ∀ name a b, (f name a b).isRegular) (hf : ∀ name a b e, f name a b ≠ .failed e) :
    (binary name f).Plain := by
  refine ⟨fun args => .reply (onNumbers (ascii name) (f (ascii name)) {} args).2,
    (by decide : (0 : Int) ≤ 2), fun _ _ => rfl, ?_, ?_⟩
  · intro args e h
    simp only [onNumbers, Action.reply.injEq] at h
    split at h
    · exact hf _ _ _ e h
    · cases h
    · cases h
  · intro args _ ha
    obtain ⟨a, b, rfl⟩ := List.length_eq_two.1 (Int.ofNat.inj ha)
    simp only [Action.isRegular, onNumbers]
    split
    · exact hr ..
    · rfl
    · rename_i hn
      exact absurd rfl (hn a b)

theorem plain_arithmetic {n : Native} (h : n ∈ arithmetic) : n.Plain := by
  have hword (complaint : String) (result : UInt64 → UInt64 → Wide) :
      (∀ name a b, (inWord name complaint a b (result a b)).isRegular) ∧
        ∀ name a b e, inWord name complaint a b (result a b) ≠ .failed e := by
    unfold inWord
    constructor
    · intro name a b
      split <;> rfl
    · intro name a b e
      split <;> exact Reply.noConfusion
  simp only [arithmetic, List.mem_cons, List.not_mem_nil, or_false] at h
  rcases h with rfl | rfl | rfl | rfl | rfl
  · exact plain_binary "+" (hword _ Wide.sum).1 (hword _ Wide.sum).2
  · exact plain_binary "-" (hword _ Wide.difference).1 (hword _ Wide.difference).2
  · exact plain_binary "*" (hword _ Wide.product).1 (hword _ Wide.product).2
  · exact plain_binary "=" (fun _ _ _ => rfl) fun _ _ _ _ => Reply.noConfusion
  · exact plain_binary "<" (fun _ _ _ => rfl) fun _ _ _ _ => Reply.noConfusion

theorem acts_writing {n : Native} (f : List Value → Option Bytes) (h0 : 0 ≤ n.arity)
    (hf : ∀ m args, n.handler m args = emit m (f args))
    (ht : ∀ args : List Value, (∀ v ∈ args, v.isSolid) → args.length = n.arity →
      (f args).isSome) : n.Acts fun args => .write (f args) :=
  ⟨h0, hf, fun _ _ => Action.noConfusion, ht⟩

theorem head?_bind_isSome {text : Value → Option Bytes} (ht : ∀ v, (text v).isSome ↔ v.isSolid)
    (args : List Value) (hs : ∀ v ∈ args, v.isSolid) (ha : (args.length : Int) = 1) :
    (args.head?.bind text).isSome := by
  obtain ⟨v, rfl⟩ := List.length_eq_one_iff.1 (Int.ofNat.inj ha)
  exact (ht v).2 (hs v List.mem_cons_self)

theorem plain_output {n : Native} (h : n ∈ output) : n.Plain := by
  simp only [output, List.mem_cons, List.not_mem_nil, or_false] at h
  rcases h with rfl | rfl | rfl
  · exact ⟨_, acts_writing _ (by decide) (fun _ _ => rfl)
      (head?_bind_isSome Value.display?_isSome_iff)⟩
  · exact ⟨_, acts_writing _ (by decide) (fun _ _ => rfl)
      (head?_bind_isSome Value.write?_isSome_iff)⟩
  · exact ⟨_, acts_writing (fun _ => some (ascii "\n")) (by decide) (fun _ _ => rfl)
      fun _ _ _ => rfl⟩

theorem plain_onPair (name : String) {f : Value → Value → Value}
    (hf : ∀ left right, left.isSolid → right.isSolid → (f left right).isSolid) :
    (onPair name f).Plain := by
  refine ⟨fun args => .reply ((onPair name f).handler {} args).2, (by decide : (0 : Int) ≤ 1),
    fun _ _ => rfl, ?_, ?_⟩
  · intro args e h
    simp only [onPair, Action.reply.injEq] at h
    split at h <;> cases h
  · intro args hs ha
    obtain ⟨v, rfl⟩ := List.length_eq_one_iff.1 (Int.ofNat.inj ha)
    have hv : v.isSolid := hs v List.mem_cons_self
    cases v with
    | pair left right =>
      obtain ⟨hl, hr⟩ := Value.isSolid_pair.1 hv
      exact hf left right hl hr
    | null | eof | boolean _ | number _ | string _ | symbol _ | char _ | bytes _ | hollow
    | unknown _ => rfl

theorem plain_cons : cons.Plain := by
  refine ⟨fun args => .reply (cons.handler {} args).2, by decide, fun _ _ => rfl, ?_, ?_⟩
  · intro args e h
    simp only [cons, Action.reply.injEq] at h
    split at h <;> cases h
  · intro args hs ha
    obtain ⟨left, right, rfl⟩ := List.length_eq_two.1 (Int.ofNat.inj ha)
    exact Value.isSolid_pair.2 ⟨hs left (by simp), hs right (by simp)⟩

theorem plain_pairs {n : Native} (h : n ∈ pairs) : n.Plain := by
  simp only [pairs, List.mem_cons, List.not_mem_nil, or_false] at h
  rcases h with rfl | rfl | rfl | rfl
  · exact plain_cons
  · exact plain_onPair "car" fun _ _ hl _ => hl
  · exact plain_onPair "cdr" fun _ _ _ hr => hr
  · exact ⟨fun args => .reply (.value (.boolean (args == [.null]))), by decide, fun _ _ => rfl,
      fun _ _ h => Reply.noConfusion (Action.reply.inj h), fun _ _ _ => rfl⟩

end Native

namespace Registry

theorem callable_standard :
    standard.callable = Native.arithmetic ++ Native.output ++ Native.pairs := by
  rfl

theorem plain_standard : ∀ n ∈ standard.callable, n.Plain := by
  rw [callable_standard]
  intro n hn
  rcases List.mem_append.1 hn with hn | hn
  · rcases List.mem_append.1 hn with hn | hn
    · exact Native.plain_arithmetic hn
    · exact Native.plain_output hn
  · exact Native.plain_pairs hn

theorem unobservant_standard : ∀ n ∈ standard.callable, n.Unobservant :=
  fun n hn => (plain_standard n hn).unobservant

theorem detached_standard : ∀ n ∈ standard.callable, n.Detached :=
  fun n hn => (plain_standard n hn).detached

theorem aloof_standard : ∀ n ∈ standard.callable, n.Aloof :=
  fun n hn => (plain_standard n hn).aloof

end Registry

end MiniScheme
