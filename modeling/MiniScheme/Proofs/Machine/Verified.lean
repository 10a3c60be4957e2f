import MiniScheme.Proofs.Code.Verifier

/-! Runs of verified code. Every frame holds what the verifier computes, so a run ends in a value,
for a cause that lies in the program, or with the error of a native procedure that it calls. -/
namespace MiniScheme

/-- Causes that lie in the program or its limits. -/
def Cause.isOrdinary (c : Cause) : Bool :=
  match c.family with
  | .unbound | .unknownProcedure | .notProcedure | .arity | .frameOverflow | .instructionLimit =>
    true
  | _ => false

theorem Cause.isInternal_eq_false_of_isOrdinary {c : Cause} (h : c.isOrdinary) :
    c.isInternal = false := by
  unfold isOrdinary at h
  unfold isInternal
  cases hf : c.family <;> simp_all

/-- Some well-formed call among `calls` ends with this error. -/
def RunError.ComesFrom (calls : Native → Machine → List Value → Prop) (e : RunError) : Prop :=
  ∃ n m args, calls n m args ∧ n.Called m args ∧
    ((n.handler m args).2 = .refused e.cause ∨ (n.handler m args).2 = .failed e)

theorem RunError.ComesFrom.mono {calls calls' : Native → Machine → List Value → Prop}
    {e : RunError} (h : e.ComesFrom calls) (hc : ∀ n m args, calls n m args → calls' n m args) :
    e.ComesFrom calls' := by
  obtain ⟨n, m, args, hcalls, hrest⟩ := h
  exact ⟨n, m, args, hc n m args hcalls, hrest⟩

theorem RunError.ComesFrom.isInternal_eq_false {calls : Native → Machine → List Value → Prop}
    {e : RunError} (h : e.ComesFrom calls) (hn : ∀ n m args, calls n m args → n.ReportsOwn) :
    e.cause.isInternal = false := by
  obtain ⟨n, m, args, hcalls, hcalled, hreply⟩ := h
  obtain ⟨hrefused, hfailed⟩ := hn n m args hcalls m args hcalled
  rcases hreply with hreply | hreply
  · exact hrefused e.cause hreply
  · exact hfailed e hreply

/-- The possible outcomes of verified code that makes the calls `calls`. -/
inductive Outcome.IsSafe (calls : Native → Machine → List Value → Prop) : Outcome → Prop where
  | value (v : Value) : IsSafe calls (.value v)
  | ordinary {e : RunError} (h : e.cause.isOrdinary) : IsSafe calls (.error .null e)
  | native {e : RunError} (h : e.ComesFrom calls) : IsSafe calls (.error .null e)

namespace Outcome.IsSafe

variable {calls calls' : Native → Machine → List Value → Prop}

theorem mono {o : Outcome} (h : o.IsSafe calls)
    (hc : ∀ n m args, calls n m args → calls' n m args) : o.IsSafe calls' := by
  cases h with
  | value v => exact .value v
  | ordinary h => exact .ordinary h
  | native h => exact .native (h.mono hc)

theorem isInternal_eq_false {v : Value} {e : RunError} (h : IsSafe calls (.error v e))
    (hn : ∀ n m args, calls n m args → n.ReportsOwn) : e.cause.isInternal = false := by
  cases h with
  | ordinary h => exact Cause.isInternal_eq_false_of_isOrdinary h
  | native h => exact h.isInternal_eq_false hn

end Outcome.IsSafe

/-- Each caller continues safely once the frame above it, with base `top`, has left one value. -/
def Program.Awaits (p : Program) : (top : Nat) → List Frame → Prop
  | _, [] => True
  | top, f :: callers =>
    f.base ≤ top ∧ p.verify ⟨top - f.base + 1, f.pending.isSome⟩ (f.chunk.code.drop f.ip) ∧
      p.Awaits f.base callers

namespace State

def holding (s : State) : Holding :=
  ⟨s.height, s.frame.pending.isSome⟩

/-- The current frame can safely carry out `ops`, and its callers can then continue. -/
structure Ready (p : Program) (s : State) (ops : List Op) : Prop where
  base : s.frame.base ≤ s.stack.length
  code : p.verify s.holding ops
  callers : p.Awaits s.frame.base s.callers

def IsSafe (p : Program) (s : State) : Prop :=
  s.Ready p (s.frame.chunk.code.drop s.frame.ip)

theorem height_push {s : State} (hb : s.frame.base ≤ s.stack.length) (v : Value) :
    (s.push v).height = s.height + 1 :=
  Nat.succ_sub hb

theorem Ready.push {p : Program} {s : State} {ops : List Op} {v : Value}
    (hb : s.frame.base ≤ s.stack.length)
    (hc : p.verify ⟨s.height + 1, s.frame.pending.isSome⟩ ops)
    (hw : p.Awaits s.frame.base s.callers) : (s.push v).Ready p ops where
  base := Nat.le_succ_of_le hb
  code := by
    unfold holding
    rw [height_push hb]
    exact hc
  callers := hw

/-- At the end of its code a frame has no name pending, and no value to discard. -/
theorem IsSafe.finished {p : Program} {s : State} (h : s.IsSafe p)
    (hend : s.frame.chunk.code.length ≤ s.frame.ip) : s.frame.pending = none ∧ s.height ≤ 1 := by
  have hcode := h.code
  rw [List.drop_eq_nil_of_le hend] at hcode
  obtain ⟨hname, hvalues⟩ := Program.verify_nil.1 hcode
  exact ⟨Option.isSome_eq_false_iff.1 hname |> Option.isNone_iff_eq_none.1, hvalues⟩

theorem IsSafe.verify_op {p : Program} {s : State} {op : Op} (h : s.IsSafe p)
    (hop : s.op? = some op) :
    p.verify s.holding (op :: s.frame.chunk.code.drop (s.frame.ip + 1)) := by
  obtain ⟨hlt, hget⟩ := List.getElem?_eq_some_iff.1 hop
  have hcode := h.code
  rwa [List.drop_eq_getElem_cons hlt, hget] at hcode

/-- Verified code makes no call with a negative arity. -/
theorem IsSafe.nonneg {p : Program} {s : State} {arity : Int} (h : s.IsSafe p)
    (hop : s.op? = some (.call arity)) : 0 ≤ arity := by
  obtain ⟨next, hnext, -⟩ := Program.verify_cons.1 (h.verify_op hop)
  exact (Op.after?_call.1 hnext).1.2.1

end State

namespace Context

variable {ctx : Context} {p : Program} {s : State}

theorem apply_isSafe {native : Native} {arity : Nat}
    {calls : Native → Machine → List Value → Prop} (hr : native.Replies)
    (hcall : native.Called (ctx.machine s) (s.stack.take arity).reverse)
    (hcalls : calls native (ctx.machine s) (s.stack.take arity).reverse)
    (hh : arity ≤ s.height) (hb : s.frame.base ≤ s.stack.length)
    (hc : p.verify ⟨s.height - arity + 1, s.frame.pending.isSome⟩
      (s.frame.chunk.code.drop s.frame.ip))
    (hw : p.Awaits s.frame.base s.callers) :
    (ctx.apply s native arity).Leads (State.IsSafe p) fun h => h.outcome.IsSafe calls := by
  have hlength : (s.stack.drop arity).length = s.stack.length - arity := List.length_drop
  rw [apply_eq]
  dsimp only
  split
  · unfold State.height at hh hc
    refine State.Ready.push ?_ ?_ hw
    · dsimp only
      omega
    · unfold State.height
      dsimp only
      rw [hlength, Nat.sub_right_comm]
      exact hc
  · rename_i cause hreply
    exact .native ⟨native, _, _, hcalls, hcall, .inl hreply⟩
  · rename_i e hreply
    exact .native ⟨native, _, _, hcalls, hcall, .inr hreply⟩
  · rename_i hreply
    exact absurd hreply (hr _ _ hcall)

structure Trusts (ctx : Context) (p : Program) : Prop where
  program : ctx.program = some p
  verified : p.isVerified
  keepsSolid : ∀ n ∈ ctx.natives.callable, n.KeepsSolid
  replies : ∀ n ∈ ctx.natives.callable, n.Replies

theorem Trusts.toKeepsSolid (h : ctx.Trusts p) : ctx.KeepsSolid where
  program q hq := by
    rw [h.program] at hq
    cases hq
    exact Program.isSolid_of_isVerified h.verified
  keeps := h.keepsSolid
  replies := h.replies

theorem dispatch_isSafe (ht : ctx.Trusts p) (hs : s.IsSolid) {op : Op}
    (h : s.Ready p (op :: s.frame.chunk.code.drop s.frame.ip)) :
    (ctx.dispatch s op).Leads (State.IsSafe p) fun h => h.outcome.IsSafe (ctx.Invokes s op) := by
  obtain ⟨hb, hcode, hw⟩ := h
  obtain ⟨next, hnext, hcode⟩ := Program.verify_cons.1 hcode
  have he := dispatch_effect ctx s op
  generalize ctx.dispatch s op = r at he ⊢
  cases he with
  | unknownChunk hid =>
    obtain ⟨hoccupied, -⟩ := Op.after?_push.1 hnext
    obtain ⟨c, hc⟩ := Program.isOccupied_iff.1 hoccupied
    rw [chunk?_eq ht.program, hc] at hid
    cases hid
  | vacant hid =>
    rw [chunk?_eq ht.program] at hid
    obtain ⟨chunk, hc, -⟩ := Program.verify_of_chunk? ht.verified hid
    cases hc
  | @enter id callee hid hroom =>
    rw [chunk?_eq ht.program] at hid
    obtain ⟨_, hc, hverify⟩ := Program.verify_of_chunk? ht.verified hid
    cases hc
    obtain ⟨-, rfl⟩ := Op.after?_push.1 hnext
    have hheight : (s.enter callee).height = 0 := Nat.sub_self _
    refine ⟨Nat.le_refl _, ?_, hb, hcode, hw⟩
    unfold State.holding
    rw [hheight]
    exact hverify
  | immediate v =>
    obtain ⟨-, rfl⟩ := Op.after?_immediate.1 hnext
    exact .push hb hcode hw
  | lookup hp =>
    obtain ⟨-, rfl⟩ := Op.after?_lookup.1 hnext
    exact ⟨hb, hcode, hw⟩
  | lookupWhilePending hp =>
    obtain ⟨hname, -⟩ := Op.after?_lookup.1 hnext
    simp [State.holding, hp] at hname
  | load hp hv =>
    obtain ⟨-, rfl⟩ := Op.after?_load.1 hnext
    exact State.Ready.push hb hcode hw
  | loadWithoutLookup hp =>
    obtain ⟨hname, -⟩ := Op.after?_load.1 hnext
    simp [State.holding, hp] at hname
  | @define name text v rest hstack hh htext =>
    obtain ⟨-, rfl⟩ := Op.after?_define.1 hnext
    have hlength : s.stack.length = rest.length + 1 := by rw [hstack, List.length_cons]
    have hbase : s.frame.base ≤ rest.length := by
      unfold State.height at hh
      omega
    have hheight : rest.length - s.frame.base = s.height - 1 := by
      unfold State.height
      omega
    refine ⟨hbase, ?_, hw⟩
    change p.verify ⟨rest.length - s.frame.base, _⟩ _
    rw [hheight]
    exact hcode
  | underflow hh =>
    have hpos : 0 < s.height := (Op.after?_define.1 hnext).1
    omega
  | textless hstack htext =>
    have hv := hs.stack _ (by rw [hstack]; exact List.mem_cons_self)
    have hsome := (Value.write?_isSome_iff _).2 hv
    rw [htext] at hsome
    cases hsome
  | callWithoutLookup hp =>
    simp [Op.after?, State.holding, hp] at hnext
  | callUnderflow hp hn hh =>
    obtain ⟨⟨-, hnonneg, hle⟩, -⟩ := Op.after?_call.1 hnext
    have hheight : s.holding.values = s.height := rfl
    omega
  | negative hp hn hneg =>
    obtain ⟨⟨-, hnonneg, -⟩, -⟩ := Op.after?_call.1 hnext
    omega
  | apply hp hn ha hh =>
    obtain ⟨-, rfl⟩ := Op.after?_call.1 hnext
    have hinvokes := invokes_of_arity hp hn ha hh
    refine apply_isSafe (ht.replies _ hinvokes.mem) ?_ hinvokes hh hb hcode hw
    exact called_of_apply ⟨hs.globals, hs.stack, hs.frame, hs.callers⟩ ha hh
  | invalid => cases hnext
  | overflow | unbound | notProcedure | unknownProcedure | arity => exact .ordinary rfl

theorem finish_isSafe (calls : Native → Machine → List Value → Prop)
    (hb : s.frame.base ≤ s.stack.length) (hw : p.Awaits s.frame.base s.callers) :
    s.finish.Leads (State.IsSafe p) fun h => h.outcome.IsSafe calls := by
  unfold State.finish
  dsimp only
  split
  · exact .value _
  · rename_i caller callers hc
    replace hc : s.callers = caller :: callers := hc
    rw [hc] at hw
    obtain ⟨hbase, hcode, hw⟩ := hw
    have hlength : (s.stack.drop s.height).length = s.frame.base := by
      rw [List.length_drop]
      unfold State.height
      omega
    refine ⟨?_, ?_, hw⟩
    · change caller.base ≤ (s.stack.drop s.height).length + 1
      omega
    · have hheight : (s.stack.drop s.height).length + 1 - caller.base =
          s.frame.base - caller.base + 1 := by omega
      change p.verify ⟨(s.stack.drop s.height).length + 1 - caller.base, _⟩ _
      rw [hheight]
      exact hcode

/-- The step lemma of safety. -/
theorem step_isSafe (ht : ctx.Trusts p) (hs : s.IsSolid) (h : s.IsSafe p) :
    (ctx.step s).Leads (State.IsSafe p) fun h => h.outcome.IsSafe (ctx.Calls s) := by
  cases hop : s.op? with
  | none =>
    obtain ⟨hname, -⟩ := h.finished (List.getElem?_eq_none_iff.1 hop)
    rw [step_of_end hop, hname]
    exact finish_isSafe _ h.base h.callers
  | some op =>
    rw [step_of_op? hop]
    split
    · exact .ordinary rfl
    · rename_i hl
      have hready :
          (s.advance.traced op).Ready p (op :: s.frame.chunk.code.drop (s.frame.ip + 1)) :=
        ⟨h.base, h.verify_op hop, h.callers⟩
      have hsolid : (s.advance.traced op).IsSolid :=
        ⟨hs.globals, hs.stack, hs.frame, hs.callers⟩
      refine (dispatch_isSafe ht hsolid hready).mono (fun _ => id) ?_
      intro e he
      exact he.mono fun n m args hinvokes => ⟨op, hop, hl, hinvokes⟩

theorem step_isSolid_isSafe (ht : ctx.Trusts p) (hs : s.IsSolid ∧ s.IsSafe p) :
    (ctx.step s).Leads (fun s => s.IsSolid ∧ s.IsSafe p) fun h =>
      h.IsSolid ∧ h.outcome.IsSafe (ctx.Calls s) :=
  (step_isSolid ht.toKeepsSolid hs.1 fun _ _ hop => hs.2.nonneg hop).and
    (step_isSafe ht hs.1 hs.2)

end Context

namespace Machine

/-- `Visits natives p m ids s`: the run of the entries `ids` of `p` on `m` passes the state `s`. -/
inductive Visits (natives : Registry) (p : Program) : Machine → List Int → State → Prop where
  | now {m : Machine} {id : Int} {ids : List Int} {c : Chunk} {s : State}
      (hc : p.chunk? id = some (some c)) (hs : (m.context natives).Reaches (m.start c) s) :
      Visits natives p m (id :: ids) s
  | later {m next : Machine} {id : Int} {ids : List Int} {c : Chunk} {v : Value} {s : State}
      (hc : p.chunk? id = some (some c)) (hm : m.execute natives (some c) = (next, .value v))
      (hs : Visits natives p next ids s) : Visits natives p m (id :: ids) s

/-- The calls of native procedures in the run of the entries `ids`. -/
def Calls (natives : Registry) (p : Program) (m : Machine) (ids : List Int) (n : Native)
    (host : Machine) (args : List Value) : Prop :=
  ∃ s, Visits natives p m ids s ∧ (m.context natives).Calls s n host args

variable {natives : Registry} {p : Program} {m : Machine}

theorem Calls.mem {ids : List Int} {n : Native} {host : Machine} {args : List Value}
    (h : Calls natives p m ids n host args) : n ∈ natives.callable := by
  obtain ⟨s, -, op, -, -, hinvokes⟩ := h
  exact hinvokes.mem

theorem start_isSafe {c : Chunk} (hv : p.verify {} c.code) : (m.start c).IsSafe p where
  base := Nat.le_refl 0
  code := hv
  callers := trivial

theorem execute_isSafe (ht : (m.context natives).Trusts p) (hg : m.globals.isSolid) {id : Int}
    {c : Chunk} (hc : p.chunk? id = some (some c)) :
    (m.execute natives (some c)).1.globals.isSolid ∧
      (∃ s, (m.context natives).Reaches (m.start c) s ∧
        (m.execute natives (some c)).2.IsSafe ((m.context natives).Calls s)) ∧
      ∀ s, (m.context natives).Reaches (m.start c) s → s.IsSafe p := by
  obtain ⟨_, hsome, hv⟩ := Program.verify_of_chunk? ht.verified hc
  cases hsome
  have hstart : (m.start c).IsSolid ∧ (m.start c).IsSafe p :=
    ⟨start_isSolid hg (Program.isSolid_of_verify hv), start_isSafe hv⟩
  have hstep (s : State) (hs : s.IsSolid ∧ s.IsSafe p) :=
    Context.step_isSolid_isSafe ht hs
  obtain ⟨s, hs, hsolid, hsafe⟩ := Context.run_invariant hstep hstart
  refine ⟨hsolid.globals, ⟨s, hs, hsafe⟩, ?_⟩
  intro s hs
  exact (hs.invariant hstep hstart).2

/-- Running the entries of a verified program passes safe states only and ends safely. -/
theorem runEntries_isSafe (ids : List Int) (last : Value) (ht : (m.context natives).Trusts p)
    (hg : m.globals.isSolid) (hids : ∀ id ∈ ids, p.isOccupied id) :
    (m.runEntries natives p last ids).2.IsSafe (Calls natives p m ids) ∧
      ∀ s, Visits natives p m ids s → s.IsSafe p := by
  induction ids generalizing m last with
  | nil => exact ⟨.value last, fun s hs => by cases hs⟩
  | cons id ids ih =>
    obtain ⟨hid, hids⟩ := List.forall_mem_cons.1 hids
    obtain ⟨c, hc⟩ := Program.isOccupied_iff.1 hid
    obtain ⟨hsolid, ⟨t, ht', hlast⟩, hpassed⟩ := execute_isSafe ht hg hc
    have hsafe : (m.execute natives (some c)).2.IsSafe (Calls natives p m (id :: ids)) :=
      hlast.mono fun n host args hcalls => ⟨t, .now hc ht', hcalls⟩
    have hcontext := context_execute m natives (some c)
    simp only [runEntries, hc]
    generalize hr : m.execute natives (some c) = r at hsolid hsafe hcontext ⊢
    obtain ⟨next, outcome⟩ := r
    have hrest (last : Value) := ih last (hcontext ▸ ht) hsolid hids
    constructor
    · cases outcome with
      | value v =>
        refine (hrest v).1.mono ?_
        rintro n host args ⟨s, hs, hcalls⟩
        exact ⟨s, .later hc hr hs, hcontext ▸ hcalls⟩
      | error v e => exact hsafe
      | crash => exact hsafe
    · intro s hs
      cases hs with
      | now hc' hs =>
        cases hc.symm.trans hc'
        exact hpassed s hs
      | later hc' hm hs =>
        cases hc.symm.trans hc'
        cases hr.symm.trans hm
        exact (hrest last).2 s hs

/-- A verified program is safe on every machine. -/
theorem run_isSafe (hp : p.isVerified) (hg : m.globals.isSolid)
    (hk : ∀ n ∈ natives.callable, n.KeepsSolid) (hr : ∀ n ∈ natives.callable, n.Replies) :
    (m.run natives (some p)).2.IsSafe (Calls natives p (m.load (some p)) p.entries) ∧
      ∀ s, Visits natives p (m.load (some p)) p.entries s → s.IsSafe p := by
  have ht : ((m.load (some p)).context natives).Trusts p := ⟨rfl, hp, hk, hr⟩
  have hentries := List.all_eq_true.1 (Bool.and_eq_true_iff.1 hp).2
  exact runEntries_isSafe p.entries .null ht hg hentries

end Machine

end MiniScheme
