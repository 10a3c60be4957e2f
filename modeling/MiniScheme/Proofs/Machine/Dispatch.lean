import Mathlib.Algebra.Order.BigOperators.Group.Finset
import Mathlib.Algebra.Ring.GeomSum
import MiniScheme.Proofs.Machine.Frames
import MiniScheme.Proofs.Machine.Solid

/-! The instructions of a run. Their number is bounded even for cyclic pushes: code has no jumps, so
only nesting multiplies, and its depth is bounded. -/
namespace MiniScheme

structure Dispatch where
  before : State
  op : Op

def Dispatch.event (d : Dispatch) : TraceEvent :=
  ⟨d.before.advance.frame.site, d.before.depth, d.op⟩

namespace Context

/-- The instruction that a step carries out: none at the end of a chunk or if the limit is
exhausted. -/
def dispatch? (ctx : Context) (s : State) : Option Dispatch :=
  match s.op? with
  | none => none
  | some op => if 0 < ctx.limit ∧ ctx.limit < s.executed + 1 then none else some ⟨s, op⟩

def dispatches (ctx : Context) (s : State) : List Dispatch :=
  match _h : ctx.step s with
  | .halt _ => (ctx.dispatch? s).toList
  | .next t => (ctx.dispatch? s).toList ++ dispatches ctx t
termination_by ctx.work s
decreasing_by exact work_step _h

/-- `Ends ctx s begun e`: the run from `s` ends with `e` after finitely many steps, which carry out
the instructions `begun`. -/
inductive Ends (ctx : Context) : State → List Dispatch → Halt → Prop where
  | halt {s : State} {e : Halt} (hs : ctx.step s = .halt e) :
      Ends ctx s (ctx.dispatch? s).toList e
  | next {s t : State} {begun : List Dispatch} {e : Halt} (hs : ctx.step s = .next t)
      (ht : Ends ctx t begun e) : Ends ctx s ((ctx.dispatch? s).toList ++ begun) e

variable {ctx : Context} {s t : State} {begun : List Dispatch} {e : Halt}

theorem dispatch?_of_end (h : s.op? = none) : ctx.dispatch? s = none := by
  unfold dispatch?
  rw [h]

theorem dispatch?_of_op? {op : Op} (h : s.op? = some op) :
    ctx.dispatch? s =
      if 0 < ctx.limit ∧ ctx.limit < s.executed + 1 then none else some ⟨s, op⟩ := by
  unfold dispatch?
  rw [h]

theorem dispatches_of_next (h : ctx.step s = .next t) :
    ctx.dispatches s = (ctx.dispatch? s).toList ++ ctx.dispatches t := by
  rw [dispatches]
  split
  · rename_i hs; rw [h] at hs; cases hs
  · rename_i hs; rw [h] at hs; cases hs; rfl

theorem dispatches_of_halt (h : ctx.step s = .halt e) :
    ctx.dispatches s = (ctx.dispatch? s).toList := by
  rw [dispatches]
  split
  · rfl
  · rename_i hs; rw [h] at hs; cases hs

theorem ends_run (ctx : Context) (s : State) : ctx.Ends s (ctx.dispatches s) (ctx.run s) := by
  fun_induction run ctx s with
  | case1 s e he =>
    rw [dispatches_of_halt he]
    exact .halt he
  | case2 s t ht ih =>
    rw [dispatches_of_next ht]
    exact .next ht ih

theorem Ends.dispatches_eq (h : ctx.Ends s begun e) : ctx.dispatches s = begun := by
  induction h with
  | halt hs => exact dispatches_of_halt hs
  | next hs _ ih => rw [dispatches_of_next hs, ih]

/-- A bound on the instructions caused by one instruction with room for `room` more frames: itself,
and a run of the longest code with room for one frame less. -/
def price (longest room : Nat) : Nat :=
  ∑ i ∈ Finset.range (room + 1), longest ^ i

theorem price_succ (longest room : Nat) :
    price longest (room + 1) = longest * price longest room + 1 :=
  geom_sum_succ

theorem price_pos (longest room : Nat) : 0 < price longest room := by
  cases room with
  | zero => exact Nat.one_pos
  | succ room =>
    rw [price_succ]
    exact Nat.succ_pos _

theorem price_mono {a b : Nat} (h : a ≤ b) (room : Nat) : price a room ≤ price b room :=
  Finset.sum_le_sum fun i _ => Nat.pow_le_pow_left h i

theorem mul_price (longest room : Nat) :
    longest * price longest room = ∑ i ∈ Finset.range (room + 1), longest ^ (i + 1) := by
  unfold price
  rw [Finset.mul_sum]
  exact Finset.sum_congr rfl fun i _ => (Nat.pow_succ').symm

def framesBudget (ctx : Context) : List Frame → Nat
  | [] => 0
  | f :: callers =>
    (f.chunk.code.length - f.ip) * price ctx.longest (ctx.maxFrames - (callers.length + 1)) +
      ctx.framesBudget callers

/-- A bound on the instructions that a run can still carry out. -/
def budget (ctx : Context) (s : State) : Nat :=
  ctx.framesBudget (s.frame :: s.callers)

theorem ip_lt_of_op? {op : Op} (h : s.op? = some op) : s.frame.ip < s.frame.chunk.code.length := by
  obtain ⟨hlt, -⟩ := List.getElem?_eq_some_iff.1 h
  exact hlt

theorem budget_of_op? {op : Op} (h : s.op? = some op) :
    ctx.budget s =
      price ctx.longest (ctx.maxFrames - s.depth) +
        ctx.framesBudget ({ s.frame with ip := s.frame.ip + 1 } :: s.callers) := by
  obtain ⟨left, hleft⟩ : ∃ left, s.frame.chunk.code.length - s.frame.ip = left + 1 :=
    ⟨s.frame.chunk.code.length - (s.frame.ip + 1), by have := ip_lt_of_op? h; omega⟩
  have hnext : s.frame.chunk.code.length - (s.frame.ip + 1) = left := by omega
  simp only [budget, framesBudget, hleft, hnext, Nat.succ_mul, State.depth]
  omega

theorem length_dispatch?_le (ctx : Context) (s : State) :
    (ctx.dispatch? s).toList.length ≤ ctx.budget s := by
  cases hop : s.op? with
  | none => simp [dispatch?_of_end hop]
  | some op =>
    have hpos := price_pos ctx.longest (ctx.maxFrames - s.depth)
    have hone : (ctx.dispatch? s).toList.length ≤ 1 := by
      cases ctx.dispatch? s <;> simp
    rw [budget_of_op? hop]
    omega

/-- The step lemma: the budget pays for the instruction that is carried out. -/
theorem Moves.budget_le (h : ctx.Moves s t) :
    (ctx.dispatch? s).toList.length + ctx.budget t ≤ ctx.budget s := by
  have hone : (ctx.dispatch? s).toList.length ≤ 1 := by
    cases ctx.dispatch? s <;> simp
  cases h with
  | perform hop hpush hframe hcallers =>
    have hpos := price_pos ctx.longest (ctx.maxFrames - s.depth)
    have hbudget : ctx.budget t =
        ctx.framesBudget ({ s.frame with ip := s.frame.ip + 1 } :: s.callers) := by
      unfold budget
      rw [hframe, hcallers]
      rfl
    rw [budget_of_op? hop, hbudget]
    omega
  | @enter id callee hop hid hroom hframe hcallers =>
    obtain ⟨room, hr⟩ : ∃ room, ctx.maxFrames - s.depth = room + 1 :=
      ⟨ctx.maxFrames - s.depth - 1, by omega⟩
    have hr' : ctx.maxFrames - (s.depth + 1) = room := by omega
    have hcallee : callee.code.length * price ctx.longest room ≤
        ctx.longest * price ctx.longest room :=
      Nat.mul_le_mul_right _ (length_le_longest hid)
    have hbudget : ctx.budget t =
        callee.code.length * price ctx.longest (ctx.maxFrames - (s.depth + 1)) +
          ctx.framesBudget ({ s.frame with ip := s.frame.ip + 1 } :: s.callers) := by
      unfold budget
      rw [hframe, hcallers]
      rfl
    rw [budget_of_op? hop, hbudget, hr, hr', price_succ]
    omega
  | leave hend hcallers =>
    have hbudget : ctx.budget s = _ + ctx.framesBudget s.callers := rfl
    rw [dispatch?_of_end hend, hbudget, hcallers]
    exact Nat.le_trans (Nat.le_of_eq (Nat.zero_add _)) (Nat.le_add_left _ _)

theorem Ends.length_le (h : ctx.Ends s begun e) : begun.length ≤ ctx.budget s := by
  induction h with
  | halt hs => exact length_dispatch?_le ctx _
  | next hs _ ih =>
    have hstep := (step_moves hs).budget_le
    rw [List.length_append]
    omega

theorem executed_of_dispatch {op : Op} (h : ctx.dispatch s op = .halt e) :
    e.executed = s.executed := by
  have he := dispatch_effect ctx s op
  generalize ctx.dispatch s op = r at he h
  cases he with
  | @apply name native arity hp hn ha hh =>
    rw [apply_eq] at h
    dsimp only at h
    split at h <;> cases h <;> rfl
  | enter | immediate | lookup | load | define => cases h
  | unknownChunk | overflow | vacant | lookupWhilePending | loadWithoutLookup | unbound
  | underflow | textless | callWithoutLookup | notProcedure | unknownProcedure | arity
  | callUnderflow | negative | invalid => cases h; rfl

theorem executed_of_finish (h : s.finish = .halt e) : e.executed = s.executed := by
  unfold State.finish at h
  dsimp only at h
  split at h
  · cases h
    rfl
  · cases h

theorem dispatch?_unlimited (h0 : ctx.limit = 0) {op : Op} (hop : s.op? = some op) :
    ctx.dispatch? s = some ⟨s, op⟩ := by
  rw [dispatch?_of_op? hop, if_neg (by omega)]

theorem executed_of_next (h0 : ctx.limit = 0) (h : ctx.step s = .next t) :
    t.executed = s.executed + (ctx.dispatch? s).toList.length := by
  cases step_moves h with
  | perform hop _ _ _ _ _ hcount =>
    rw [dispatch?_unlimited h0 hop]
    exact hcount
  | enter hop _ _ _ _ _ hcount =>
    rw [dispatch?_unlimited h0 hop]
    exact hcount
  | leave hend _ _ hcount =>
    rw [dispatch?_of_end hend]
    exact hcount

/-- Without a limit the counter of a run is the number of instructions it carries out. -/
theorem Ends.executed_eq (h0 : ctx.limit = 0) (h : ctx.Ends s begun e) :
    e.executed = s.executed + begun.length := by
  induction h with
  | @halt s e hs =>
    cases hop : s.op? with
    | none =>
      rw [step_of_end hop] at hs
      rw [dispatch?_of_end hop]
      split at hs
      · cases hs
        rfl
      · exact executed_of_finish hs
    | some op =>
      rw [step_of_op? hop, if_neg (by omega)] at hs
      rw [dispatch?_unlimited h0 hop]
      exact executed_of_dispatch hs
  | @next s t begun e hs _ ih =>
    rw [ih, executed_of_next h0 hs, List.length_append, Nat.add_assoc]

end Context

namespace Machine

theorem budget_start_le {m : Machine} {natives : Registry} (hm : 1 ≤ m.maxFrames) (c : Chunk) :
    (m.context natives).budget (m.start c) ≤
      ∑ i ∈ Finset.range m.maxFrames,
        max c.code.length (m.context natives).longest ^ (i + 1) := by
  set longest := (m.context natives).longest
  obtain ⟨room, hroom⟩ : ∃ room, m.maxFrames = room + 1 := ⟨m.maxFrames - 1, by omega⟩
  have hroom' : m.maxFrames - (0 + 1) = room := by omega
  calc (m.context natives).budget (m.start c)
      = c.code.length * Context.price longest (m.maxFrames - (0 + 1)) := rfl
    _ = c.code.length * Context.price longest room := by rw [hroom']
    _ ≤ max c.code.length longest * Context.price (max c.code.length longest) room :=
        Nat.mul_le_mul (Nat.le_max_left _ _) (Context.price_mono (Nat.le_max_right _ _) room)
    _ = ∑ i ∈ Finset.range m.maxFrames, max c.code.length longest ^ (i + 1) := by
        rw [Context.mul_price, hroom]

/-- Every run ends, whatever the limit, also if chunks push each other cyclically. The number of
instructions it carries out, which without a limit is the machine's counter, is bounded in terms of
the longest code and the number of frames. With solid values and nonnegative arities it ends in a
value or an error. -/
theorem execute_ends {m : Machine} (hm : 1 ≤ m.maxFrames) (natives : Registry) (c : Chunk) :
    let ctx := m.context natives
    ∃ begun e, ctx.Ends (m.start c) begun e ∧
      begun.length ≤ ∑ i ∈ Finset.range m.maxFrames, max c.code.length ctx.longest ^ (i + 1) ∧
      m.execute natives (some c) = (m.halted e, e.outcome) ∧
      (m.limit = 0 → e.executed = begun.length) ∧
      (ctx.IsSolid → m.globals.isSolid → c.isSolid → e.outcome ≠ .crash) := by
  intro ctx
  have hends := Context.ends_run ctx (m.start c)
  refine ⟨_, _, hends, Nat.le_trans hends.length_le (budget_start_le hm c), rfl, ?_, ?_⟩
  · intro h0
    exact (hends.executed_eq h0).trans (Nat.zero_add _)
  · intro hctx hg hc
    exact (Context.run_isSolid hctx (start_isSolid hg hc)).outcome

/-- A chunk that pushes itself is stopped by the limit on frames after three instructions. -/
theorem execute_ends_self_push :
    let c : Chunk := { code := [.push 0, .push 0] }
    let m : Machine := { program := some ⟨[some c], [0]⟩, maxFrames := 3 }
    let site : Site := ⟨0, -1, 0⟩
    m.limit = 0 ∧ 1 ≤ m.maxFrames ∧
      ∃ begun e, (m.context .standard).Ends (m.start c) begun e ∧
        begun.length ≤ 2 + 2 ^ 2 + 2 ^ 3 ∧ begun.length = 3 ∧
        e.outcome = .error .null ⟨.frameOverflow 3, site, [site, site, site]⟩ := by
  intro c m site
  have hm : 1 ≤ m.maxFrames := by decide
  obtain ⟨begun, e, hends, hlength, hexecute, hcount, -⟩ := execute_ends hm .standard c
  have hexecuted : (m.execute .standard (some c)).1.executed = 3 := by decide +kernel
  have houtcome : (m.execute .standard (some c)).2 =
      .error .null ⟨.frameOverflow 3, site, [site, site, site]⟩ := by decide +kernel
  rw [hexecute] at hexecuted houtcome
  exact ⟨rfl, hm, begun, e, hends, hlength, (hcount rfl).symm.trans hexecuted, houtcome⟩

/-- A hollow pair from an immediate or a native procedure. Its definition crashes, because the value
has no text for the log. -/
theorem execute_hollow_definition :
    let x := ascii "x"
    let f := ascii "f"
    let c : Chunk := { code := [.immediate .hollow, .define x, .immediate .null] }
    let d : Chunk := { code := [.lookup f, .call 0, .define x, .immediate .null] }
    let natives : Registry := { callable := [⟨f, 0, fun m _ => (m.console, .value .hollow)⟩] }
    let m : Machine := { program := some ⟨[some c, some d], [0]⟩ }
    m.limit = 0 ∧ 1 ≤ m.maxFrames ∧ m.globals.isSolid ∧
      (∀ n ∈ natives.callable, n.Replies ∧ 0 ≤ n.arity) ∧
      (m.execute natives (some c)).2 = .crash ∧ (m.execute natives (some d)).2 = .crash := by
  intro x f c d natives m
  have hreplies : ∀ n ∈ natives.callable, n.Replies ∧ 0 ≤ n.arity := by
    intro n hn
    cases List.mem_singleton.1 hn
    exact ⟨fun _ _ _ => Reply.noConfusion, Int.le_refl 0⟩
  have hc : (m.context natives).run (m.start c) = _ :=
    (Context.run_of_next rfl).trans (Context.run_of_halt rfl)
  have hd : (m.context natives).run (m.start d) = _ :=
    (Context.run_of_next rfl).trans ((Context.run_of_next rfl).trans (Context.run_of_halt rfl))
  exact ⟨rfl, Nat.le_add_left 1 255, rfl, hreplies, congrArg Halt.outcome hc,
    congrArg Halt.outcome hd⟩

end Machine

end MiniScheme
