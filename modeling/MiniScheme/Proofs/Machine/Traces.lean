import MiniScheme.Proofs.Machine.Activation
import MiniScheme.Proofs.Machine.Limit

/-! Traces of successful runs. Such a run carries out every instruction, so the code determines the
trace. -/
namespace MiniScheme

structure State.StandsAt (s : State) (chunk : Chunk) (i : Nat) (callers : List Frame) : Prop where
  chunk : s.frame.chunk = chunk
  ip : s.frame.ip = i
  callers : s.callers = callers

namespace State.StandsAt

variable {s : State} {chunk : Chunk} {i : Nat} {callers : List Frame}

theorem op? (h : s.StandsAt chunk i callers) : s.op? = chunk.code[i]? := by
  unfold State.op?
  rw [h.chunk, h.ip]

theorem event (h : s.StandsAt chunk i callers) (op : Op) :
    Dispatch.event ⟨s, op⟩ = ⟨chunk.siteAt i, callers.length + 1, op⟩ := by
  have hsite : s.advance.frame.site = s.frame.chunk.siteAt s.frame.ip := by
    simp [State.advance, Frame.site, Chunk.siteAt]
  unfold Dispatch.event State.depth
  rw [hsite, h.chunk, h.ip, h.callers]

end State.StandsAt

namespace Context

variable {ctx : Context} {s t u : State}

def Succeeds (ctx : Context) (s : State) : Prop :=
  ∃ v, (ctx.run s).outcome = .value v

/-- No instruction ends a run with a value. -/
theorem dispatch_outcome (ctx : Context) (s : State) (op : Op) :
    (ctx.dispatch s op).Leads (fun _ => True) fun e => ∀ v, e.outcome ≠ .value v := by
  have he := dispatch_effect ctx s op
  generalize ctx.dispatch s op = r at he ⊢
  cases he with
  | apply =>
    rw [apply_eq]
    dsimp only
    split
    · trivial
    · exact fun _ => Outcome.noConfusion
    · exact fun _ => Outcome.noConfusion
    · exact fun _ => Outcome.noConfusion
  | enter | immediate | lookup | load | define => trivial
  | unknownChunk | overflow | vacant | lookupWhilePending | loadWithoutLookup | unbound
  | underflow | textless | callWithoutLookup | notProcedure | unknownProcedure | arity
  | callUnderflow | negative | invalid => exact fun _ => Outcome.noConfusion

/-- A successful run ends only when the last frame is left. -/
theorem Succeeds.next (h : ctx.Succeeds s) (hs : s.op? ≠ none ∨ s.callers ≠ []) :
    ∃ t, ctx.step s = .next t ∧ ctx.Succeeds t := by
  obtain ⟨v, hv⟩ := h
  cases hstep : ctx.step s with
  | next t => exact ⟨t, rfl, v, by rw [← run_of_next hstep, hv]⟩
  | halt e =>
    rw [run_of_halt hstep] at hv
    cases hop : s.op? with
    | none =>
      rw [step_of_end hop] at hstep
      cases hp : s.frame.pending with
      | some name =>
        rw [hp] at hstep
        cases hstep
        cases hv
      | none =>
        rw [hp] at hstep
        obtain ⟨caller, callers, hcallers⟩ : ∃ caller callers, s.callers = caller :: callers :=
          List.exists_cons_of_ne_nil (hs.resolve_left (fun h => h hop))
        simp only [State.finish, State.logged, hcallers] at hstep
        cases hstep
    | some op =>
      have hop' := dispatch_outcome ctx (s.advance.traced op) op
      rw [step_of_op? hop] at hstep
      split at hstep
      · cases hstep
        cases hv
      · rw [hstep] at hop'
        exact absurd hv (hop' v)

/-- `Passes ctx s events t`: the run from `s` traces `events` and continues as the run from `t`. -/
structure Passes (ctx : Context) (s : State) (events : List TraceEvent) (t : State) : Prop where
  run : ctx.run s = ctx.run t
  events : (ctx.dispatches s).map Dispatch.event =
    events ++ (ctx.dispatches t).map Dispatch.event

theorem Passes.refl (ctx : Context) (s : State) : ctx.Passes s [] s :=
  ⟨rfl, rfl⟩

theorem Passes.trans {xs ys : List TraceEvent} (h : ctx.Passes s xs t) (h' : ctx.Passes t ys u) :
    ctx.Passes s (xs ++ ys) u := by
  refine ⟨h.run.trans h'.run, ?_⟩
  rw [h.events, h'.events, List.append_assoc]

theorem Passes.succeeds {xs : List TraceEvent} (h : ctx.Passes s xs t) (hs : ctx.Succeeds s) :
    ctx.Succeeds t := by
  unfold Succeeds
  rw [← h.run]
  exact hs

theorem passes_of_next (h : ctx.step s = .next t) :
    ctx.Passes s ((ctx.dispatch? s).toList.map Dispatch.event) t := by
  refine ⟨run_of_next h, ?_⟩
  rw [dispatches_of_next h, List.map_append]

theorem Succeeds.carryOut (h : ctx.Succeeds s) (h0 : ctx.limit = 0) {chunk : Chunk} {i : Nat}
    {callers : List Frame} (hs : s.StandsAt chunk i callers) {op : Op}
    (hop : chunk.code[i]? = some op) :
    ∃ t, ctx.Passes s [⟨chunk.siteAt i, callers.length + 1, op⟩] t ∧ ctx.Moves s t := by
  have hsop : s.op? = some op := hs.op?.trans hop
  obtain ⟨t, hstep, -⟩ := h.next (.inl (by simp [hsop]))
  have hpass := passes_of_next hstep
  rw [dispatch?_unlimited h0 hsop, Option.toList_some, List.map_singleton, hs.event op] at hpass
  exact ⟨t, hpass, step_moves hstep⟩

theorem Succeeds.leave (h : ctx.Succeeds s) (hend : s.op? = none) {caller : Frame}
    {callers : List Frame} (hcallers : s.callers = caller :: callers) :
    ∃ t, ctx.Passes s [] t ∧ t.frame = caller ∧ t.callers = callers := by
  obtain ⟨t, hstep, -⟩ := h.next (.inr (by simp [hcallers]))
  have hpass := passes_of_next hstep
  rw [dispatch?_of_end hend] at hpass
  refine ⟨t, hpass, ?_⟩
  cases step_moves hstep with
  | perform hop | enter hop =>
    rw [hend] at hop
    cases hop
  | leave _ hleft =>
    rw [hcallers] at hleft
    cases hleft
    exact ⟨rfl, rfl⟩

/-- Every successful run from the instruction `i` of a chunk, with `depth` frames open, traces
`events` up to the instruction `j`. -/
def Traces (ctx : Context) (chunk : Chunk) (depth i : Nat) (events : List TraceEvent) (j : Nat) :
    Prop :=
  ∀ (s : State) (callers : List Frame), callers.length + 1 = depth → s.StandsAt chunk i callers →
    ctx.Succeeds s → ∃ t, ctx.Passes s events t ∧ t.StandsAt chunk j callers

variable {chunk callee : Chunk} {depth i j k : Nat} {xs ys : List TraceEvent}

theorem Traces.refl (ctx : Context) (chunk : Chunk) (depth i : Nat) :
    ctx.Traces chunk depth i [] i := by
  intro s callers _ hs _
  exact ⟨s, .refl ctx s, hs⟩

theorem Traces.trans (h : ctx.Traces chunk depth i xs j) (h' : ctx.Traces chunk depth j ys k) :
    ctx.Traces chunk depth i (xs ++ ys) k := by
  intro s callers hd hs hsucceeds
  obtain ⟨t, hst, ht⟩ := h s callers hd hs hsucceeds
  obtain ⟨u, htu, hu⟩ := h' t callers hd ht (hst.succeeds hsucceeds)
  exact ⟨u, hst.trans htu, hu⟩

theorem traces_op (h0 : ctx.limit = 0) {op : Op} (hop : chunk.code[i]? = some op)
    (hpush : ∀ id, op ≠ .push id) :
    ctx.Traces chunk depth i [⟨chunk.siteAt i, depth, op⟩] (i + 1) := by
  rintro s callers rfl hs hsucceeds
  have hsop : s.op? = some op := hs.op?.trans hop
  obtain ⟨t, hpass, hmoves⟩ := hsucceeds.carryOut h0 hs hop
  refine ⟨t, hpass, ?_⟩
  cases hmoves with
  | perform _ _ hframe hcallers =>
    refine ⟨?_, ?_, hcallers.trans hs.callers⟩
    · rw [hframe]
      exact hs.chunk
    · rw [hframe, ← hs.ip]
  | enter hop' =>
    cases hsop.symm.trans hop'
    exact absurd rfl (hpush _)
  | leave hend => cases hsop.symm.trans hend

/-- A push traces itself and then the chunk that it runs. -/
theorem traces_push (h0 : ctx.limit = 0) {id : Int} (hop : chunk.code[i]? = some (.push id))
    (hid : ctx.chunk? id = some (some callee))
    (hcallee : ctx.Traces callee (depth + 1) 0 xs callee.code.length) :
    ctx.Traces chunk depth i (⟨chunk.siteAt i, depth, .push id⟩ :: xs) (i + 1) := by
  rintro s callers rfl hs hsucceeds
  have hsop : s.op? = some (.push id) := hs.op?.trans hop
  obtain ⟨t, hst, hmoves⟩ := hsucceeds.carryOut h0 hs hop
  cases hmoves with
  | perform hop' hpush =>
    cases hsop.symm.trans hop'
    exact absurd rfl (hpush _)
  | leave hend => cases hsop.symm.trans hend
  | enter hop' hid' _ hframe hcallers =>
    cases hsop.symm.trans hop'
    cases hid.symm.trans hid'
    have ht : t.StandsAt callee 0 t.callers := by
      refine ⟨?_, ?_, rfl⟩ <;> rw [hframe]
    have hdepth : t.callers.length = callers.length + 1 := by
      rw [hcallers, List.length_cons, hs.callers]
    have htsucceeds := hst.succeeds hsucceeds
    obtain ⟨u, htu, hu⟩ := hcallee t t.callers (by rw [hdepth]) ht htsucceeds
    have hend : u.op? = none := hu.op?.trans (List.getElem?_eq_none (Nat.le_refl _))
    obtain ⟨w, huw, hframe', hcallers'⟩ :=
      (htu.succeeds htsucceeds).leave hend (hu.callers.trans hcallers)
    refine ⟨w, ?_, ?_, ?_, ?_⟩
    · have hall := (hst.trans htu).trans huw
      rwa [List.append_nil, List.singleton_append] at hall
    · rw [hframe']
      exact hs.chunk
    · rw [hframe', ← hs.ip]
    · rw [hcallers', hs.callers]

end Context

namespace Machine

theorem events_of_traces {m : Machine} {natives : Registry} {c : Chunk} {events : List TraceEvent}
    (h : (m.context natives).Traces c 1 0 events c.code.length) {v : Value}
    (hv : (m.execute natives (some c)).2 = .value v) :
    ((m.context natives).dispatches (m.start c)).map Dispatch.event = events := by
  obtain ⟨t, hpass, ht⟩ := h (m.start c) [] rfl ⟨rfl, rfl, rfl⟩ ⟨v, hv⟩
  have hend : t.op? = none := ht.op?.trans (List.getElem?_eq_none (Nat.le_refl _))
  have hlast : (m.context natives).dispatches t = [] := by
    cases hstep : (m.context natives).step t with
    | halt e => rw [Context.dispatches_of_halt hstep, Context.dispatch?_of_end hend]; rfl
    | next u =>
      cases Context.step_moves hstep with
      | perform hop | enter hop => cases hend.symm.trans hop
      | leave _ hcallers => cases ht.callers.symm.trans hcallers
  rw [hpass.events, hlast, List.map_nil, List.append_nil]

end Machine

end MiniScheme
