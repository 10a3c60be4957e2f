import MiniScheme.Proofs.Code.Agreement
import MiniScheme.Proofs.Machine.Traces

/-! The cost of compiled programs. The tree of a form determines the instructions that a run of the
form executes, and their number determines the limits under which the run succeeds. -/
namespace MiniScheme

namespace Expr

mutual

def size : Expr → Nat
  | define _ body _ => body.size + 1
  | call _ args _ => sizeAll args + 1
  | empty _ | static .. | reference .. | foreign .. | missing => 1

def sizeAll : List Expr → Nat
  | [] => 0
  | e :: es => e.size + sizeAll es

end

mutual

def cost : Expr → Nat
  | empty _ => 0
  | static .. => 1
  | reference .. => 2
  | define _ body _ => 2 + body.cost
  | call _ args _ => args.length + 2 + costAll args
  | foreign .. | missing => 0

def costAll : List Expr → Nat
  | [] => 0
  | e :: es => e.cost + costAll es

end

def maxCost : List Expr → Nat
  | [] => 0
  | e :: es => max e.cost (maxCost es)

mutual

/-- The instructions of a tree in order of execution, where `id` is its first chunk and `depth` the
number of frames. Each push is followed by the instructions of the part it runs, one frame
deeper. -/
def linearize (id depth : Nat) : Expr → List TraceEvent
  | empty _ => []
  | static v pos => [⟨⟨id, pos.line, 0⟩, depth, .immediate v⟩]
  | reference name pos =>
    [⟨⟨id, pos.line, 0⟩, depth, .lookup name⟩, ⟨⟨id, pos.line, 1⟩, depth, .load⟩]
  | define name body pos =>
    ⟨⟨id, pos.line, 0⟩, depth, .push (id + 1 : Nat)⟩ ::
      (linearize (id + 1) (depth + 1) body ++ [⟨⟨id, pos.line, 1⟩, depth, .define name⟩])
  | call name args pos =>
    linearizeArgs id pos.line depth 0 (id + 1) args ++
      [⟨⟨id, pos.line, args.length⟩, depth, .lookup name⟩,
        ⟨⟨id, pos.line, args.length + 1⟩, depth, .call args.length⟩]
  | foreign .. | missing => []

/-- The pushes of arguments from the instruction `index` on, each with what it runs, where the
chunks of the next argument start at `next`. -/
def linearizeArgs (id : Nat) (line : Int) (depth index next : Nat) :
    List Expr → List TraceEvent
  | [] => []
  | arg :: args =>
    ⟨⟨id, line, index⟩, depth, .push next⟩ ::
      (linearize next (depth + 1) arg ++
        linearizeArgs id line depth (index + 1) (next + arg.size) args)

end

mutual

theorem length_linearize (id depth : Nat) (e : Expr) : (e.linearize id depth).length = e.cost := by
  cases e with
  | empty | static | reference | foreign | missing => rfl
  | define name body pos =>
    simp only [linearize, cost, List.length_cons, List.length_append, List.length_nil,
      length_linearize (id + 1) (depth + 1) body]
    omega
  | call name args pos =>
    simp only [linearize, cost, List.length_cons, List.length_append, List.length_nil,
      length_linearizeArgs id pos.line depth 0 (id + 1) args]
    omega

theorem length_linearizeArgs (id : Nat) (line : Int) (depth index next : Nat) (args : List Expr) :
    (linearizeArgs id line depth index next args).length = args.length + costAll args := by
  cases args with
  | nil => rfl
  | cons arg args =>
    simp only [linearizeArgs, costAll, List.length_cons, List.length_append,
      length_linearize next (depth + 1) arg,
      length_linearizeArgs id line depth (index + 1) (next + arg.size) args]
    omega

end

mutual

theorem Lowered.length_eq {id : Nat} {e : Expr} {chunks : List Chunk} (h : Lowered id e chunks) :
    chunks.length = e.size := by
  cases h with
  | empty | static | reference => rfl
  | define hn hb => rw [List.length_cons, hb.length_eq, size]
  | call hn ha => rw [List.length_cons, ha.length_eq, size]

theorem LoweredAll.length_eq {id : Nat} {es : List Expr} {ids : List Nat} {chunks : List Chunk}
    (h : LoweredAll id es ids chunks) : chunks.length = sizeAll es := by
  cases h with
  | nil => rfl
  | cons he hes => rw [List.length_append, he.length_eq, hes.length_eq, sizeAll]

end

end Expr

namespace Chunk

theorem foldl_emit_onLine (ops : List Op) (line : Int) {c : Chunk} (h : c.lines = [⟨0, line⟩]) :
    (ops.foldl (fun c op => c.emit op line) c).id = c.id ∧
      (ops.foldl (fun c op => c.emit op line) c).lines = [⟨0, line⟩] := by
  induction ops generalizing c with
  | nil => exact ⟨rfl, h⟩
  | cons op ops ih =>
    have hemit : (c.emit op line).lines = [⟨0, line⟩] := by simp [emit, h]
    exact ih hemit

theorem siteAt_onLine (id line : Int) {ops : List Op} {i : Nat} (h : i < ops.length) :
    (onLine id line ops).siteAt i = ⟨id, line, i⟩ := by
  cases ops with
  | nil => cases h
  | cons op ops =>
    obtain ⟨hid, hlines⟩ := foldl_emit_onLine ops line (c := ({ id } : Chunk).emit op line) rfl
    have hnonneg : ¬(i : Int) < 0 := by omega
    unfold siteAt onLine
    rw [List.foldl_cons, hid, hlines]
    simp [lineAt, lineFrom, hnonneg, emit]

end Chunk

namespace Expr

variable {ctx : Context} {p : Program}

theorem traces_op_onLine (h0 : ctx.limit = 0) {id line : Int} {ops rest : List Op} {op : Op}
    {depth i : Nat} (hops : ops.drop i = op :: rest) (hpush : ∀ id, op ≠ .push id) :
    ctx.Traces (.onLine id line ops) depth i [⟨⟨id, line, i⟩, depth, op⟩] (i + 1) := by
  have hop := (getElem?_of_drop hops).1
  have hi : i < ops.length := (List.getElem?_eq_some_iff.1 hop).1
  rw [← Chunk.siteAt_onLine id line hi]
  exact Context.traces_op h0 (by rw [Chunk.code_onLine, hop]) hpush

theorem traces_push_onLine (h0 : ctx.limit = 0) (hp : ctx.program = some p) {id line : Int}
    {ops rest : List Op} {depth i next : Nat} (hops : ops.drop i = .push next :: rest)
    {callee : Chunk} (hcallee : p.chunk? next = some (some callee)) {events : List TraceEvent}
    (h : ctx.Traces callee (depth + 1) 0 events callee.code.length) :
    ctx.Traces (.onLine id line ops) depth i (⟨⟨id, line, i⟩, depth, .push next⟩ :: events)
      (i + 1) := by
  have hop := (getElem?_of_drop hops).1
  have hi : i < ops.length := (List.getElem?_eq_some_iff.1 hop).1
  rw [← Chunk.siteAt_onLine id line hi]
  refine Context.traces_push h0 (by rw [Chunk.code_onLine, hop]) ?_ h
  rw [Context.chunk?_eq hp, hcallee]

mutual

/-- The code of a tree traces its linearization. -/
theorem Lowered.traces (h0 : ctx.limit = 0) (hctx : ctx.program = some p) {id : Nat} {e : Expr}
    {chunks : List Chunk} (h : Lowered id e chunks) (hp : p.Fits id chunks) (depth : Nat) :
    ∃ c, p.chunk? id = some (some c) ∧
      ctx.Traces c depth 0 (e.linearize id depth) c.code.length := by
  cases h with
  | @empty _ pos =>
    refine ⟨_, hp.head, ?_⟩
    exact .refl ctx _ depth 0
  | @static _ v pos =>
    refine ⟨_, hp.head, ?_⟩
    rw [Chunk.code_onLine]
    exact traces_op_onLine h0 rfl (fun _ => Op.noConfusion)
  | @reference _ name pos hn =>
    refine ⟨_, hp.head, ?_⟩
    rw [Chunk.code_onLine]
    have hlookup : ctx.Traces (.onLine id pos.line [.lookup name, .load]) depth 0 _ 1 :=
      traces_op_onLine h0 rfl (fun _ => Op.noConfusion)
    exact hlookup.trans (traces_op_onLine h0 rfl (fun _ => Op.noConfusion))
  | @define _ name body pos inner hn hb =>
    refine ⟨_, hp.head, ?_⟩
    rw [Chunk.code_onLine]
    obtain ⟨c, hc, hbody⟩ := hb.traces h0 hctx hp.tail (depth + 1)
    have hpush :
        ctx.Traces (.onLine id pos.line [.push (id + 1 : Nat), .define name]) depth 0 _ 1 :=
      traces_push_onLine h0 hctx rfl hc hbody
    exact hpush.trans (traces_op_onLine h0 rfl (fun _ => Op.noConfusion))
  | @call _ ids name args pos inner hn ha =>
    refine ⟨_, hp.head, ?_⟩
    rw [Chunk.code_onLine]
    generalize hops :
      ids.map (fun (i : Nat) => Op.push i) ++ [.lookup name, .call args.length] = ops
    have hpushes : (ids.map fun (i : Nat) => Op.push i).length = args.length := by
      rw [List.length_map, (ha.holdsAll hp.tail).length_eq]
    have hlast : ops.drop args.length = [.lookup name, .call args.length] := by
      rw [← hops, List.drop_left' hpushes]
    have hlength : ops.length = args.length + 1 + 1 := by
      rw [← hops, List.length_append, hpushes]
      rfl
    have hargs := ha.traces h0 hctx hp.tail id pos.line (i := 0) hops.symm depth
    rw [Nat.zero_add] at hargs
    have hlookup : ctx.Traces (.onLine id pos.line ops) depth args.length _ (args.length + 1) :=
      traces_op_onLine h0 hlast (fun _ => Op.noConfusion)
    have hcall : ctx.Traces (.onLine id pos.line ops) depth (args.length + 1) _ _ :=
      traces_op_onLine h0 (getElem?_of_drop hlast).2 (fun _ => Op.noConfusion)
    rw [hlength]
    exact hargs.trans (hlookup.trans hcall)

theorem LoweredAll.traces (h0 : ctx.limit = 0) (hctx : ctx.program = some p) {next : Nat}
    {args : List Expr} {ids : List Nat} {chunks : List Chunk} (h : LoweredAll next args ids chunks)
    (hp : p.Fits next chunks) (id : Nat) (line : Int) {ops rest : List Op} {i : Nat}
    (hops : ops.drop i = ids.map (fun (i : Nat) => Op.push i) ++ rest) (depth : Nat) :
    ctx.Traces (.onLine id line ops) depth i (linearizeArgs id line depth i next args)
      (i + args.length) := by
  cases h with
  | nil => exact .refl ctx _ depth i
  | @cons _ ids arg args first others harg hrest =>
    obtain ⟨c, hc, htraces⟩ := harg.traces h0 hctx hp.append_left (depth + 1)
    have hpush : ctx.Traces (.onLine id line ops) depth i _ (i + 1) :=
      traces_push_onLine h0 hctx hops hc htraces
    have hothers := hrest.traces h0 hctx hp.append_right id line (getElem?_of_drop hops).2 depth
    have hall := hpush.trans hothers
    have hend : i + 1 + args.length = i + (arg :: args).length := by
      rw [List.length_cons]
      omega
    rwa [hend, harg.length_eq] at hall

end

end Expr

namespace Machine

section

variable {natives : Registry} {p : Program} {m mid after : Machine} {last u v : Value}
  {ids : List Int} {limit : Nat}

theorem runEntries_of_value {id : Int} {chunk : Option Chunk} (hc : p.chunk? id = some chunk)
    (h : m.execute natives chunk = (mid, .value u)) :
    m.runEntries natives p last (id :: ids) = mid.runEntries natives p u ids := by
  rw [runEntries, hc]
  dsimp only
  rw [h]

theorem runEntries_of_error {id : Int} {chunk : Option Chunk} (hc : p.chunk? id = some chunk)
    {e : RunError} (h : m.execute natives chunk = (mid, .error u e)) :
    m.runEntries natives p last (id :: ids) = (mid, .error u e) := by
  rw [runEntries, hc]
  dsimp only
  rw [h]

theorem execute_of_runEntries {id : Int} {chunk : Option Chunk} (hc : p.chunk? id = some chunk)
    (h : m.runEntries natives p last (id :: ids) = (after, .value v)) :
    ∃ mid u, m.execute natives chunk = (mid, .value u) ∧
      mid.runEntries natives p u ids = (after, .value v) := by
  rw [runEntries, hc] at h
  dsimp only at h
  split at h
  · rename_i mid u hexecute
    exact ⟨mid, u, hexecute, h⟩
  · rename_i hno
    exact absurd h (hno after v)

/-- `RunsForms natives p id forms ids m last after v`: without a limit, the entries `ids` of `p`
take `m` to `after` with the value `v`. They are the code of `forms`, which starts at `id`, and each
traces its form. -/
inductive RunsForms (natives : Registry) (p : Program) :
    Nat → List Expr → List Int → Machine → Value → Machine → Value → Prop where
  | nil {id : Nat} {m : Machine} {last : Value} : RunsForms natives p id [] [] m last m last
  | cons {id : Nat} {form : Expr} {forms : List Expr} {ids : List Int} {m mid after : Machine}
      {last u v : Value} {c : Chunk} (h0 : m.limit = 0) (hc : p.chunk? id = some (some c))
      (hexecute : m.execute natives (some c) = (mid, .value u))
      (hevents : ((m.context natives).dispatches (m.start c)).map Dispatch.event =
        form.linearize id 1)
      (hforms : RunsForms natives p (id + form.size) forms ids mid u after v) :
      RunsForms natives p id (form :: forms) (id :: ids) m last after v

theorem runsForms_of_runEntries {id : Nat} {forms : List Expr} {ids : List Nat}
    {chunks : List Chunk} (h : Expr.LoweredAll id forms ids chunks) (hp : p.Fits id chunks)
    (h0 : m.limit = 0) (hm : m.program = some p)
    (hrun : m.runEntries natives p last (ids.map fun (i : Nat) => (i : Int)) = (after, .value v)) :
    RunsForms natives p id forms (ids.map fun (i : Nat) => (i : Int)) m last after v := by
  induction forms generalizing id ids chunks m last with
  | nil =>
    cases h
    cases hrun
    exact .nil
  | cons form forms ih =>
    cases h with
    | @cons _ ids _ _ first others hform hrest =>
      have hcontext : (m.context natives).limit = 0 := h0
      obtain ⟨c, hc, htraces⟩ := hform.traces hcontext hm hp.append_left 1
      obtain ⟨mid, u, hexecute, hothers⟩ := execute_of_runEntries hc hrun
      have hv : (m.execute natives (some c)).2 = .value u := by rw [hexecute]
      obtain rfl : (m.execute natives (some c)).1 = mid := by rw [hexecute]
      refine .cons h0 hc hexecute (events_of_traces htraces hv) ?_
      have hfits := hp.append_right
      rw [hform.length_eq] at hrest hfits
      exact ih hrest hfits h0 hm hothers

theorem length_dispatches {id : Nat} {form : Expr} {c : Chunk}
    (h : ((m.context natives).dispatches (m.start c)).map Dispatch.event = form.linearize id 1) :
    ((m.context natives).dispatches (m.start c)).length = form.cost := by
  rw [← List.length_map (f := Dispatch.event), h, Expr.length_linearize]

/-- A limit that no form exceeds changes nothing. -/
theorem RunsForms.runEntries_of_maxCost_le (hn : ∀ n ∈ natives.callable, n.Detached)
    (hlimit : 0 < limit) {id : Nat} {forms : List Expr}
    (h : RunsForms natives p id forms ids m last after v) (hle : Expr.maxCost forms ≤ limit) :
    (m.setLimit limit).runEntries natives p last ids = (after.setLimit limit, .value v) := by
  induction h with
  | nil => rfl
  | @cons id form forms ids m mid after last u v c h0 hc hexecute hevents hforms ih =>
    obtain ⟨hform, hothers⟩ := Nat.max_le.1 hle
    have hlength := length_dispatches hevents
    have hbounded := execute_of_length_le hn h0 hlimit (hlength.le.trans hform)
    rw [hexecute] at hbounded
    rw [runEntries_of_value hc hbounded]
    exact ih hothers

/-- The first form that exceeds the limit is cut. -/
theorem RunsForms.runEntries_of_lt_maxCost (hn : ∀ n ∈ natives.callable, n.Detached)
    (hlimit : 0 < limit) {id : Nat} {forms : List Expr}
    (h : RunsForms natives p id forms ids m last after v) (hlt : limit < Expr.maxCost forms) :
    ∃ e, e.cause = .instructionLimit ∧
      ((m.setLimit limit).runEntries natives p last ids).2 = .error .null e := by
  induction h with
  | nil => cases hlt
  | @cons id form forms ids m mid after last u v c h0 hc hexecute hevents hforms ih =>
    have hlength := length_dispatches hevents
    rcases Nat.lt_or_ge limit form.cost with hform | hform
    · obtain ⟨d, hd⟩ : ∃ d, ((m.context natives).dispatches (m.start c))[limit]? = some d :=
        ⟨_, List.getElem?_eq_getElem (hform.trans_eq hlength.symm)⟩
      rw [runEntries_of_error hc (execute_of_getElem? hn h0 hlimit hd)]
      exact ⟨_, rfl, rfl⟩
    · have hbounded := execute_of_length_le hn h0 hlimit (hlength.le.trans hform)
      have hothers : limit < Expr.maxCost forms := (lt_max_iff.1 hlt).resolve_left hform.not_gt
      rw [hexecute] at hbounded
      rw [runEntries_of_value hc hbounded]
      exact ih hothers

/-- Each form adds its linearization to the trace. -/
theorem RunsForms.records (hn : ∀ n ∈ natives.callable, n.Detached) {id : Nat} {form : Expr}
    {front back : List Expr}
    (h : RunsForms natives p id (front ++ form :: back) ids m last after v) :
    ∃ a b u w, m.runEntries natives p last (ids.take front.length) = (a, .value u) ∧
      m.runEntries natives p last (ids.take (front.length + 1)) = (b, .value w) ∧
      a.console.Records (form.linearize (id + Expr.sizeAll front) 1) b.console := by
  induction front generalizing id ids m last with
  | nil =>
    cases h with
    | @cons _ _ _ ids _ mid _ _ u _ c h0 hc hexecute hevents hforms =>
      have hrecords := execute_records hn m c
      rw [hexecute, hevents] at hrecords
      exact ⟨m, mid, last, u, rfl, runEntries_of_value hc hexecute, hrecords⟩
  | cons first front ih =>
    cases h with
    | @cons _ _ _ ids _ mid _ _ u _ c h0 hc hexecute hevents hforms =>
      obtain ⟨a, b, w, w', ha, hb, hrecords⟩ := ih hforms
      rw [Nat.add_assoc] at hrecords
      refine ⟨a, b, w, w', ?_, ?_, hrecords⟩
      · exact (runEntries_of_value hc hexecute).trans ha
      · exact (runEntries_of_value hc hexecute).trans hb

end

/-- The cost of a compiled program whose unlimited run succeeds. Each form traces the linearization
of its tree, whose length is its cost. A limited run succeeds iff the limit is at least the largest
cost of a form, and then the limit changes nothing. -/
theorem run_compile_cost {natives : Registry} (hn : ∀ n ∈ natives.callable, n.Detached)
    {m after : Machine} {forms : List Expr} {p : Program} {v : Value}
    (hp : compile forms = .ok p)
    (hrun : (m.setLimit 0).run natives (some p) = (after, .value v)) :
    let loaded := (m.setLimit 0).load (some p)
    (∀ front form back, forms = front ++ form :: back → ∃ a b u w,
      loaded.runEntries natives p .null (p.entries.take front.length) = (a, .value u) ∧
      loaded.runEntries natives p .null (p.entries.take (front.length + 1)) = (b, .value w) ∧
      a.console.Records (form.linearize (Expr.sizeAll front) 1) b.console ∧
      (form.linearize (Expr.sizeAll front) 1).length = form.cost) ∧
    ∀ limit : Nat, 0 < limit →
      let bounded := (m.setLimit limit).run natives (some p)
      (bounded.2 = .value v ∧ bounded.1.globals = after.globals ∧
        bounded.1.console.out = after.console.out ↔ Expr.maxCost forms ≤ limit) ∧
      (limit < Expr.maxCost forms →
        ∃ e, e.cause = .instructionLimit ∧ bounded.2 = .error .null e) := by
  intro loaded
  obtain ⟨ids, chunks, hlowered, rfl⟩ := loweredAll_of_compile hp
  have hforms :=
    runsForms_of_runEntries (m := loaded) hlowered (fits_map_some chunks _) rfl rfl hrun
  refine ⟨?_, ?_⟩
  · rintro front form back rfl
    obtain ⟨a, b, u, w, ha, hb, hrecords⟩ := hforms.records hn
    rw [Nat.zero_add] at hrecords
    exact ⟨a, b, u, w, ha, hb, hrecords, Expr.length_linearize ..⟩
  · intro limit hlimit bounded
    have hcut := hforms.runEntries_of_lt_maxCost hn hlimit
    refine ⟨⟨?_, ?_⟩, hcut⟩
    · rintro ⟨hvalue, -⟩
      by_contra hlt
      obtain ⟨e, -, herror⟩ := hcut (Nat.not_le.1 hlt)
      cases hvalue.symm.trans herror
    · intro hle
      have hbounded : bounded = _ := hforms.runEntries_of_maxCost_le hn hlimit hle
      rw [hbounded]
      exact ⟨rfl, rfl, rfl⟩

/-- Forms of three and seven instructions: a limit of seven suffices. -/
theorem run_compile_cost_definition_and_use :
    let x := ascii "x"
    let cons := ascii "cons"
    let forms : List Expr := [.define x (.static (.number 7) { line := 1 }) { line := 1 },
      .call cons [.reference x { line := 2 }, .static .null { line := 3 }] { line := 2 }]
    let m : Machine := { console := { trace := some #[] } }
    ∃ p, compile forms = .ok p ∧
      let loaded := (m.setLimit 0).load (some p)
      ((m.setLimit 0).run .standard (some p)).2 = .value (.pair (.number 7) .null) ∧
      ((m.setLimit 7).run .standard (some p)).2 = .value (.pair (.number 7) .null) ∧
      (∃ e, e.cause = .instructionLimit ∧
        ((m.setLimit 6).run .standard (some p)).2 = .error .null e) ∧
      (loaded.runEntries .standard p .null (p.entries.take 1)).1.console.Records
        [⟨⟨2, 2, 0⟩, 1, .push 3⟩, ⟨⟨3, 2, 0⟩, 2, .lookup x⟩, ⟨⟨3, 2, 1⟩, 2, .load⟩,
          ⟨⟨2, 2, 1⟩, 1, .push 4⟩, ⟨⟨4, 3, 0⟩, 2, .immediate .null⟩,
          ⟨⟨2, 2, 2⟩, 1, .lookup cons⟩, ⟨⟨2, 2, 3⟩, 1, .call 2⟩]
        (loaded.runEntries .standard p .null (p.entries.take 2)).1.console := by
  intro x cons forms m
  obtain ⟨p, hp⟩ : ∃ p, compile forms = .ok p := ⟨_, rfl⟩
  let loaded := (m.setLimit 0).load (some p)
  have hvalue : ((m.setLimit 0).run .standard (some p)).2 = .value (.pair (.number 7) .null) := by
    cases hp
    decide +kernel
  obtain ⟨htraces, hlimits⟩ :=
    run_compile_cost Registry.detached_standard hp (Prod.ext rfl hvalue)
  obtain ⟨a, b, u, w, ha, hb, hrecords, -⟩ := htraces [_] _ [] rfl
  refine ⟨p, hp, hvalue, ?_, ?_, ?_⟩
  · exact ((hlimits 7 (by decide)).1.2 (by decide)).1
  · exact (hlimits 6 (by decide)).2 (by decide)
  · replace ha : loaded.runEntries .standard p .null (p.entries.take 1) = (a, .value u) := ha
    replace hb : loaded.runEntries .standard p .null (p.entries.take 2) = (b, .value w) := hb
    rw [ha, hb]
    exact hrecords

end Machine

end MiniScheme
