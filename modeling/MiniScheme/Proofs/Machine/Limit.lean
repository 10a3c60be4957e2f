import MiniScheme.Proofs.Machine.Dispatch

/-! Runs with and without an instruction limit. A limit cuts a run before one instruction and
changes nothing else. -/
namespace MiniScheme

namespace Console

/-- `Records events c d`: from `c` to `d` the console has traced `events`, if it traces at all. -/
def Records (events : List TraceEvent) (c d : Console) : Prop :=
  d.trace = c.trace.map (· ++ events.toArray)

variable {xs ys : List TraceEvent} {a b c : Console}

theorem records_nil (h : b.trace = a.trace) : Records [] a b := by
  unfold Records
  rw [h]
  simp

theorem records_traced (c : Console) (event : TraceEvent) : Records [event] c (c.traced event) := by
  unfold Records traced
  dsimp only
  congr 1

theorem Records.trans (h : Records xs a b) (h' : Records ys b c) : Records (xs ++ ys) a c := by
  unfold Records at *
  rw [h', h, Option.map_map]
  congr 1
  funext events
  simp

end Console

/-- The end of a run that the limit cuts before the next instruction. -/
def State.cut (s : State) : Halt :=
  ⟨s.globals, s.console, s.stack, s.advance.sites, s.executed + 1,
    .error .null ⟨.instructionLimit, s.advance.frame.site, s.advance.sites⟩⟩

namespace Context

def withLimit (ctx : Context) (limit : Nat) : Context :=
  { ctx with limit }

variable {ctx : Context} {s t : State} {begun : List Dispatch} {e : Halt} {limit : Nat}

theorem dispatch?_eq_some {d : Dispatch} (h : ctx.dispatch? s = some d) : d.before = s := by
  unfold dispatch? at h
  split at h
  · cases h
  · split at h
    · cases h
    · cases h
      rfl

theorem apply_withLimit {native : Native} (hn : native.Detached) (arity : Nat) :
    (ctx.withLimit limit).apply s native arity = ctx.apply s native arity := by
  have hmachine : (ctx.withLimit limit).machine s = { ctx.machine s with limit } := rfl
  rw [apply_eq, apply_eq, hmachine, hn.limit]

theorem call_withLimit (hn : ∀ n ∈ ctx.natives.callable, n.Detached) (name : Bytes) (arity : Int) :
    (ctx.withLimit limit).call s name arity = ctx.call s name arity := by
  have hnatives : (ctx.withLimit limit).natives = ctx.natives := rfl
  unfold call
  rw [hnatives]
  cases hnative : ctx.natives.callable? name with
  | none => rfl
  | some native =>
    dsimp only
    rw [apply_withLimit (hn native (Registry.mem_of_callable? hnative))]

theorem dispatch_withLimit (hn : ∀ n ∈ ctx.natives.callable, n.Detached) (op : Op) :
    (ctx.withLimit limit).dispatch s op = ctx.dispatch s op := by
  cases op with
  | call arity =>
    simp only [dispatch]
    cases s.frame.pending with
    | none => rfl
    | some name => exact call_withLimit hn name arity
  | push | immediate | load | define | lookup | invalid => rfl

/-- A limit that is not reached does not affect a step. -/
theorem step_withLimit (hn : ∀ n ∈ ctx.natives.callable, n.Detached) (h0 : ctx.limit = 0)
    (hs : s.op? = none ∨ s.executed < limit) :
    (ctx.withLimit limit).step s = ctx.step s := by
  cases hop : s.op? with
  | none => rw [step_of_end hop, step_of_end hop]
  | some op =>
    have hlt : s.executed < limit := by simpa [hop] using hs
    have hfree : ¬(0 < ctx.limit ∧ ctx.limit < s.executed + 1) := by omega
    have hwithin : ¬(0 < (ctx.withLimit limit).limit ∧
        (ctx.withLimit limit).limit < s.executed + 1) := by
      rintro ⟨-, h⟩
      exact Nat.not_lt.2 hlt h
    rw [step_of_op? hop, step_of_op? hop, if_neg hfree, if_neg hwithin, dispatch_withLimit hn op]

theorem step_cut {op : Op} (hlimit : 0 < limit) (hop : s.op? = some op) (hs : s.executed = limit) :
    (ctx.withLimit limit).step s = .halt s.cut := by
  have hspent : 0 < limit ∧ limit < s.executed + 1 := by omega
  rw [step_of_op? hop]
  exact if_pos hspent

/-- The limited run ends as the unlimited one, or is cut before the first instruction beyond the
limit. -/
theorem Ends.run_withLimit (hn : ∀ n ∈ ctx.natives.callable, n.Detached) (h0 : ctx.limit = 0)
    (hlimit : 0 < limit) (h : ctx.Ends s begun e) (hs : s.executed ≤ limit) :
    (ctx.withLimit limit).run s =
      match begun[limit - s.executed]? with
      | some d => d.before.cut
      | none => e := by
  induction h with
  | @halt s e hstep =>
    cases hop : s.op? with
    | none =>
      rw [dispatch?_of_end hop]
      exact run_of_halt ((step_withLimit hn h0 (.inl hop)).trans hstep)
    | some op =>
      rw [dispatch?_unlimited h0 hop]
      rcases Nat.lt_or_eq_of_le hs with hlt | heq
      · obtain ⟨rest, hrest⟩ : ∃ rest, limit - s.executed = rest + 1 :=
          ⟨limit - s.executed - 1, by omega⟩
        rw [hrest]
        exact run_of_halt ((step_withLimit hn h0 (.inr hlt)).trans hstep)
      · rw [heq, Nat.sub_self]
        exact run_of_halt (step_cut hlimit hop heq)
  | @next s t begun e hstep _ ih =>
    have hcount := executed_of_next h0 hstep
    cases hop : s.op? with
    | none =>
      rw [dispatch?_of_end hop] at hcount ⊢
      replace hcount : t.executed = s.executed := hcount
      rw [hcount] at ih
      rw [run_of_next ((step_withLimit hn h0 (.inl hop)).trans hstep)]
      exact ih hs
    | some op =>
      rw [dispatch?_unlimited h0 hop] at hcount ⊢
      replace hcount : t.executed = s.executed + 1 := hcount
      rcases Nat.lt_or_eq_of_le hs with hlt | heq
      · have hrest : limit - s.executed = limit - t.executed + 1 := by omega
        rw [run_of_next ((step_withLimit hn h0 (.inr hlt)).trans hstep), hrest]
        exact ih (by omega)
      · rw [heq, Nat.sub_self]
        exact run_of_halt (step_cut hlimit hop heq)

theorem dispatch_trace (hn : ∀ n ∈ ctx.natives.callable, n.Detached) (op : Op) :
    (ctx.dispatch s op).Leads (fun t => t.console.trace = s.console.trace)
      fun e => e.console.trace = s.console.trace := by
  have he := dispatch_effect ctx s op
  generalize ctx.dispatch s op = r at he ⊢
  cases he with
  | apply hp hnative ha hh =>
    have hd := hn _ (Registry.mem_of_callable? hnative)
    rw [apply_eq]
    dsimp only
    split
    · exact hd.trace _ _
    · exact hd.trace _ _
    · exact hd.trace _ _
    · exact hd.trace _ _
  | enter | immediate | lookup | load | define | unknownChunk | overflow | vacant
  | lookupWhilePending | loadWithoutLookup | unbound | underflow | textless | callWithoutLookup
  | notProcedure | unknownProcedure | arity | callUnderflow | negative | invalid => rfl

theorem finish_trace (s : State) :
    s.finish.Leads (fun t => t.console.trace = s.console.trace)
      fun e => e.console.trace = s.console.trace := by
  unfold State.finish
  dsimp only
  split <;> rfl

/-- A step traces the instruction that it carries out. -/
theorem step_records (hn : ∀ n ∈ ctx.natives.callable, n.Detached) (s : State) :
    (ctx.step s).Leads
      (fun t => s.console.Records ((ctx.dispatch? s).toList.map Dispatch.event) t.console)
      fun e => s.console.Records ((ctx.dispatch? s).toList.map Dispatch.event) e.console := by
  cases hop : s.op? with
  | none =>
    rw [step_of_end hop, dispatch?_of_end hop]
    cases s.frame.pending with
    | some name => exact Console.records_nil rfl
    | none =>
      refine (finish_trace s).mono ?_ ?_
      · exact fun t => Console.records_nil
      · exact fun e => Console.records_nil
  | some op =>
    rw [step_of_op? hop, dispatch?_of_op? hop]
    split
    · exact Console.records_nil rfl
    · have htraced := Console.records_traced s.console (Dispatch.event ⟨s, op⟩)
      refine (dispatch_trace hn op).mono ?_ ?_
      · exact fun t ht => htraced.trans (Console.records_nil ht)
      · exact fun e he => htraced.trans (Console.records_nil he)

/-- The trace of a run lists its instructions. -/
theorem Ends.records (hn : ∀ n ∈ ctx.natives.callable, n.Detached) (h : ctx.Ends s begun e) :
    s.console.Records (begun.map Dispatch.event) e.console := by
  induction h with
  | @halt s e hs =>
    have hstep := step_records hn s
    rw [hs] at hstep
    exact hstep
  | @next s t begun e hs _ ih =>
    have hstep := step_records hn s
    rw [hs] at hstep
    rw [List.map_append]
    exact hstep.trans ih

theorem Ends.records_before (hn : ∀ n ∈ ctx.natives.callable, n.Detached)
    (h : ctx.Ends s begun e) {i : Nat} {d : Dispatch} (hd : begun[i]? = some d) :
    s.console.Records ((begun.take i).map Dispatch.event) d.before.console := by
  induction h generalizing i with
  | @halt s e hs =>
    obtain ⟨rfl, hlast⟩ : i = 0 ∧ ctx.dispatch? s = some d := by
      cases hdispatch : ctx.dispatch? s <;> cases i <;> simp_all
    rw [dispatch?_eq_some hlast]
    exact Console.records_nil rfl
  | @next s t begun e hs _ ih =>
    have hstep := step_records hn s
    rw [hs] at hstep
    cases hdispatch : ctx.dispatch? s with
    | none =>
      rw [hdispatch] at hd hstep
      exact hstep.trans (ih hd)
    | some first =>
      rw [hdispatch] at hd hstep
      cases i with
      | zero =>
        cases hd
        rw [dispatch?_eq_some hdispatch]
        exact Console.records_nil rfl
      | succ i => exact hstep.trans (ih hd)

end Context

namespace Machine

section

variable {natives : Registry} {m : Machine} {c : Chunk} {limit : Nat}

theorem execute_of_run_withLimit {e : Halt}
    (h : ((m.context natives).withLimit limit).run (m.start c) = e) :
    (m.setLimit limit).execute natives (some c) = ((m.setLimit limit).halted e, e.outcome) := by
  subst h
  rfl

theorem execute_of_length_le (hn : ∀ n ∈ natives.callable, n.Detached) (h0 : m.limit = 0)
    (hlimit : 0 < limit)
    (hle : ((m.context natives).dispatches (m.start c)).length ≤ limit) :
    (m.setLimit limit).execute natives (some c) =
      ((m.execute natives (some c)).1.setLimit limit, (m.execute natives (some c)).2) := by
  have hrun := (Context.ends_run (m.context natives) (m.start c)).run_withLimit hn h0 hlimit
    (Nat.zero_le _)
  have hnone : ((m.context natives).dispatches (m.start c))[limit - (m.start c).executed]? = none :=
    List.getElem?_eq_none hle
  rw [hnone] at hrun
  exact execute_of_run_withLimit hrun

theorem execute_of_getElem? (hn : ∀ n ∈ natives.callable, n.Detached) (h0 : m.limit = 0)
    (hlimit : 0 < limit) {d : Dispatch}
    (hd : ((m.context natives).dispatches (m.start c))[limit]? = some d) :
    (m.setLimit limit).execute natives (some c) =
      ((m.setLimit limit).halted d.before.cut, d.before.cut.outcome) := by
  have hrun := (Context.ends_run (m.context natives) (m.start c)).run_withLimit hn h0 hlimit
    (Nat.zero_le _)
  replace hd : ((m.context natives).dispatches (m.start c))[limit - (m.start c).executed]? =
    some d := hd
  rw [hd] at hrun
  exact execute_of_run_withLimit hrun

theorem execute_records (hn : ∀ n ∈ natives.callable, n.Detached) (m : Machine) (c : Chunk) :
    m.console.Records (((m.context natives).dispatches (m.start c)).map Dispatch.event)
      (m.execute natives (some c)).1.console := by
  have hstart : m.console.Records [] (m.start c).console := Console.records_nil rfl
  exact hstart.trans ((Context.ends_run _ (m.start c)).records hn)

end

/-- A limit that is not exceeded changes nothing. Otherwise the run ends with an error at the first
instruction beyond the limit, with the stack, globals and output before that instruction, and its
trace is a prefix of the unlimited trace. -/
theorem execute_setLimit {natives : Registry} (hn : ∀ n ∈ natives.callable, n.Detached)
    (m : Machine) (c : Chunk) {limit : Nat} (hlimit : 0 < limit) :
    let free := (m.setLimit 0).execute natives (some c)
    let bounded := (m.setLimit limit).execute natives (some c)
    let begun := ((m.setLimit 0).context natives).dispatches (m.start c)
    m.console.Records (begun.map Dispatch.event) free.1.console ∧
      (begun.length ≤ limit → bounded = (free.1.setLimit limit, free.2)) ∧
      (limit < begun.length → ∃ d, begun[limit]? = some d ∧
        bounded.2 = .error .null ⟨.instructionLimit, d.event.site, d.before.advance.sites⟩ ∧
        bounded.1.globals = d.before.globals ∧ bounded.1.stack = d.before.stack ∧
        bounded.1.console.out = d.before.console.out ∧
        m.console.Records ((begun.take limit).map Dispatch.event) bounded.1.console) := by
  intro free bounded begun
  refine ⟨execute_records hn (m.setLimit 0) c, ?_, ?_⟩
  · intro hle
    exact execute_of_length_le (m := m.setLimit 0) hn rfl hlimit hle
  · intro hlt
    obtain ⟨d, hd⟩ : ∃ d, begun[limit]? = some d := ⟨_, List.getElem?_eq_getElem hlt⟩
    have hbounded : bounded = _ := execute_of_getElem? (m := m.setLimit 0) hn rfl hlimit hd
    have hstart : m.console.Records [] (m.start c).console := Console.records_nil rfl
    have hbefore := (Context.ends_run _ (m.start c)).records_before hn hd
    rw [hbounded]
    exact ⟨d, hd, rfl, rfl, rfl, rfl, hstart.trans hbefore⟩

/-- The limit cuts the run after a definition. -/
theorem execute_setLimit_after_definition :
    let x := ascii "x"
    let c : Chunk := { code := [.immediate .eof, .define x, .immediate .null] }
    let m : Machine := { console := { trace := some #[] } }
    let bounded := (m.setLimit 2).execute .standard (some c)
    bounded.2 = .error .null ⟨.instructionLimit, ⟨0, -1, 2⟩, [⟨0, -1, 2⟩]⟩ ∧
      bounded.1.globals.entries = [(x, .eof)] ∧
      bounded.1.console.trace =
        some #[⟨⟨0, -1, 0⟩, 1, .immediate .eof⟩, ⟨⟨0, -1, 1⟩, 1, .define x⟩] := by
  intro x c m bounded
  let ctx := (m.setLimit 0).context .standard
  obtain ⟨-, -, hcut⟩ := execute_setLimit Registry.detached_standard m c (by decide : 0 < 2)
  have hends : ctx.Ends (m.start c) _ _ := .next rfl (.next rfl (.next rfl (.halt rfl)))
  rw [hends.dispatches_eq] at hcut
  obtain ⟨d, hd, herror, hglobals, -, -, htrace⟩ := hcut (by decide)
  cases hd
  exact ⟨herror, congrArg Globals.entries hglobals, htrace⟩

end Machine

end MiniScheme
