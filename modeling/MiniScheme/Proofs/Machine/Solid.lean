import MiniScheme.Proofs.Machine.Run
import MiniScheme.Proofs.Native.Contract

/-! Runs on solid values. If code, globals and native procedures introduce no hollow pair, no chunk
is missing and no arity is negative, then no run crashes. -/
namespace MiniScheme

def Op.isSolid : Op → Bool
  | immediate v => v.isSolid
  | _ => true

def Chunk.isSolid (c : Chunk) : Bool :=
  c.code.all Op.isSolid

/-- No chunk is missing, and all immediate values are solid. -/
def Program.isSolid (p : Program) : Bool :=
  p.chunks.all fun c => c.any Chunk.isSolid

theorem Program.isSolid_of_chunk? {p : Program} {id : Int} {c : Option Chunk} (hp : p.isSolid)
    (h : p.chunk? id = some c) : ∃ chunk, c = some chunk ∧ chunk.isSolid := by
  unfold chunk? at h
  split at h
  · cases h
  · exact (Option.any_eq_true _ c).1 (List.all_eq_true.1 hp c (List.mem_of_getElem? h))

/-- The program and the native procedures preserve solidity. -/
structure Context.KeepsSolid (ctx : Context) : Prop where
  program : ∀ p, ctx.program = some p → p.isSolid
  keeps : ∀ n ∈ ctx.natives.callable, n.KeepsSolid
  replies : ∀ n ∈ ctx.natives.callable, n.Replies

structure Context.IsSolid (ctx : Context) : Prop extends ctx.KeepsSolid where
  arity : ∀ n ∈ ctx.natives.callable, 0 ≤ n.arity

theorem Context.isSolid_of_plain {ctx : Context} (hp : ∀ p, ctx.program = some p → p.isSolid)
    (hn : ∀ n ∈ ctx.natives.callable, n.Plain) : ctx.IsSolid where
  program := hp
  keeps n hmem := (hn n hmem).keepsSolid
  replies n hmem := (hn n hmem).replies
  arity n hmem := (hn n hmem).arity

structure State.IsSolid (s : State) : Prop where
  globals : s.globals.isSolid
  stack : ∀ v ∈ s.stack, v.isSolid
  frame : s.frame.chunk.isSolid
  callers : ∀ f ∈ s.callers, f.chunk.isSolid

/-- The run has not crashed, and leaves solid globals. -/
structure Halt.IsSolid (h : Halt) : Prop where
  globals : h.globals.isSolid
  outcome : h.outcome ≠ .crash

theorem State.IsSolid.push {s : State} {v : Value} (hs : s.IsSolid) (hv : v.isSolid) :
    (s.push v).IsSolid := by
  refine ⟨hs.globals, ?_, hs.frame, hs.callers⟩
  intro w hw
  rcases List.mem_cons.1 hw with rfl | hw
  · exact hv
  · exact hs.stack w hw

namespace Context

variable {ctx : Context} {s : State}

theorem KeepsSolid.chunk? (hctx : ctx.KeepsSolid) {id : Int} {c : Option Chunk}
    (h : ctx.chunk? id = some c) : ∃ chunk, c = some chunk ∧ chunk.isSolid := by
  obtain ⟨p, hp, hc⟩ := Option.bind_eq_some_iff.1 h
  exact Program.isSolid_of_chunk? (hctx.program p hp) hc

/-- A call on a solid stack is well formed. -/
theorem called_of_apply {native : Native} {arity : Nat} (hs : s.IsSolid)
    (ha : native.arity = arity) (hh : arity ≤ s.height) :
    native.Called (ctx.machine s) (s.stack.take arity).reverse where
  globals := hs.globals
  args := by
    intro v hv
    exact hs.stack v (List.mem_of_mem_take (List.mem_reverse.1 hv))
  arity := by
    have hle : arity ≤ s.stack.length := Nat.le_trans hh (Nat.sub_le _ _)
    rw [List.length_reverse, List.length_take, Nat.min_eq_left hle, ha]

theorem Invokes.mem {op : Op} {n : Native} {m : Machine} {args : List Value}
    (h : ctx.Invokes s op n m args) : n ∈ ctx.natives.callable := by
  obtain ⟨name, -, hname⟩ := Option.bind_eq_some_iff.1 h.native
  exact Registry.mem_of_callable? hname

theorem apply_isSolid {native : Native} {arity : Nat} (hk : native.KeepsSolid)
    (hr : native.Replies) (hs : s.IsSolid) (ha : native.arity = arity) (hh : arity ≤ s.height) :
    (ctx.apply s native arity).Leads State.IsSolid Halt.IsSolid := by
  have hcall : native.Called (ctx.machine s) _ := called_of_apply hs ha hh
  rw [apply_eq]
  dsimp only
  split
  · rename_i v hv
    have ht : ∀ w ∈ s.stack.drop arity, w.isSolid :=
      fun w hw => hs.stack w (List.mem_of_mem_drop hw)
    refine State.IsSolid.push ⟨hs.globals, ht, hs.frame, hs.callers⟩ ?_
    exact hk _ _ v hcall hv
  · exact ⟨hs.globals, Outcome.noConfusion⟩
  · exact ⟨hs.globals, Outcome.noConfusion⟩
  · rename_i hc
    exact absurd hc (hr _ _ hcall)

theorem dispatch_isSolid (hctx : ctx.KeepsSolid) (hs : s.IsSolid) {op : Op} (hop : op.isSolid)
    (hcalls : ∀ n ∈ ctx.natives.callable, op = .call n.arity → 0 ≤ n.arity) :
    (ctx.dispatch s op).Leads State.IsSolid Halt.IsSolid := by
  have he := dispatch_effect ctx s op
  generalize ctx.dispatch s op = r at he ⊢
  cases he with
  | vacant hid hroom =>
    obtain ⟨chunk, hc, -⟩ := hctx.chunk? hid
    cases hc
  | enter hid hroom =>
    obtain ⟨chunk, hc, hsolid⟩ := hctx.chunk? hid
    cases hc
    exact ⟨hs.globals, hs.stack, hsolid, List.forall_mem_cons.2 ⟨hs.frame, hs.callers⟩⟩
  | immediate v => exact hs.push hop
  | lookup hp => exact ⟨hs.globals, hs.stack, hs.frame, hs.callers⟩
  | load hp hv =>
    refine State.IsSolid.push ⟨hs.globals, hs.stack, hs.frame, hs.callers⟩ ?_
    exact Globals.isSolid_of_find? hs.globals hv
  | define hstack hh ht =>
    have hall := hs.stack
    rw [hstack, List.forall_mem_cons] at hall
    exact ⟨Globals.isSolid_bind hs.globals hall.1, hall.2, hs.frame, hs.callers⟩
  | @textless name v rest hstack ht =>
    have hv : v.isSolid := hs.stack v (by rw [hstack]; exact List.mem_cons_self)
    have hsome := (Value.write?_isSome_iff v).2 hv
    rw [ht] at hsome
    cases hsome
  | negative hp hn hneg =>
    have hmem := Registry.mem_of_callable? hn
    exact absurd hneg (Int.not_lt.2 (hcalls _ hmem rfl))
  | apply hp hn ha hh =>
    have hmem := Registry.mem_of_callable? hn
    refine apply_isSolid (hctx.keeps _ hmem) (hctx.replies _ hmem) ?_ ha hh
    exact ⟨hs.globals, hs.stack, hs.frame, hs.callers⟩
  | unknownChunk | overflow | lookupWhilePending | loadWithoutLookup | unbound | underflow
  | callWithoutLookup | notProcedure | unknownProcedure | arity | callUnderflow | invalid =>
    exact ⟨hs.globals, Outcome.noConfusion⟩

theorem finish_isSolid (hs : s.IsSolid) :
    s.finish.Leads State.IsSolid Halt.IsSolid := by
  unfold State.finish
  dsimp only
  split
  · exact ⟨hs.globals, Outcome.noConfusion⟩
  · rename_i caller callers hc
    have hcallers := hs.callers
    replace hc : s.callers = caller :: callers := hc
    rw [hc, List.forall_mem_cons] at hcallers
    refine ⟨hs.globals, ?_, hcallers.1, hcallers.2⟩
    intro v hv
    rcases List.mem_cons.1 hv with rfl | hv
    · split
      · cases hstack : s.stack with
        | nil => rfl
        | cons w rest => exact hs.stack w (by rw [hstack]; exact List.mem_cons_self)
      · rfl
    · exact hs.stack v (List.mem_of_mem_drop hv)

/-- The step lemma of solidity. -/
theorem step_isSolid (hctx : ctx.KeepsSolid) (hs : s.IsSolid)
    (hcalls : ∀ n ∈ ctx.natives.callable, s.op? = some (.call n.arity) → 0 ≤ n.arity) :
    (ctx.step s).Leads State.IsSolid Halt.IsSolid := by
  unfold step
  split
  · split
    · exact ⟨hs.globals, Outcome.noConfusion⟩
    · exact finish_isSolid hs
  · rename_i op hop
    have hsolid : op.isSolid := List.all_eq_true.1 hs.frame op (List.mem_of_getElem? hop)
    dsimp only
    split
    · exact ⟨hs.globals, Outcome.noConfusion⟩
    · refine dispatch_isSolid hctx ?_ hsolid ?_
      · exact ⟨hs.globals, hs.stack, hs.frame, hs.callers⟩
      · rintro n hmem rfl
        exact hcalls n hmem hop

theorem run_isSolid (hctx : ctx.IsSolid) (hs : s.IsSolid) : (ctx.run s).IsSolid := by
  have hstep (t : State) (ht : t.IsSolid) :=
    step_isSolid hctx.toKeepsSolid ht fun n hmem _ => hctx.arity n hmem
  obtain ⟨t, -, hlast⟩ := run_invariant hstep hs
  exact hlast

end Context

theorem Machine.start_isSolid {m : Machine} {chunk : Chunk} (hg : m.globals.isSolid)
    (hc : chunk.isSolid) : (m.start chunk).IsSolid where
  globals := hg
  stack := List.forall_mem_nil _
  frame := hc
  callers := List.forall_mem_nil _

end MiniScheme
