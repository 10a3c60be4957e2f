import MiniScheme.Proofs.Code.Placement

/-! Runs of corresponding code. They have the same effects and report the same errors at
corresponding sites, whatever has been traced and logged before. -/
namespace MiniScheme

/-- The error with its sites mapped through `view`. -/
def RunError.viewed (view : Site → Site) (e : RunError) : RunError where
  cause := e.cause
  site := view e.site
  stack := e.stack.map view

def Outcome.viewed (view : Site → Site) : Outcome → Outcome
  | value v => value v
  | error v e => error v (e.viewed view)
  | crash => crash

theorem Outcome.viewed_id (o : Outcome) : o.viewed id = o := by
  cases o with
  | value v => rfl
  | error v e => simp [viewed, RunError.viewed]
  | crash => rfl

theorem Outcome.viewed_eq_value_iff {view : Site → Site} {o : Outcome} {v : Value} :
    o.viewed view = .value v ↔ o = .value v := by
  cases o <;> simp [viewed]

/-- Worlds that differ at most in trace and log. -/
structure World.Resembles (w w' : World) : Prop where
  globals : w'.globals = w.globals
  out : w'.console.out = w.console.out
  executed : w'.executed = w.executed

namespace World.Resembles

variable {w w' : World}

theorem logged (h : w.Resembles w') (event event' : LogEvent) :
    (w.logged event).Resembles (w'.logged event') :=
  ⟨h.globals, h.out, h.executed⟩

theorem bind (h : w.Resembles w') (name : Bytes) (v : Value) :
    Resembles { w with globals := w.globals.bind name v }
      { w' with globals := w'.globals.bind name v } :=
  ⟨congrArg (·.bind name v) h.globals, h.out, h.executed⟩

theorem counted (h : w.Resembles w') : w.counted.Resembles w'.counted :=
  ⟨h.globals, h.out, congrArg (· + 1) h.executed⟩

theorem begun (h : w.Resembles w') (depth : Nat) (c c' : Chunk) (ip : Nat) (op op' : Op) :
    Resembles (Context.begun depth c ip op w) (Context.begun depth c' ip op' w') :=
  ⟨h.globals, h.out, h.counted.executed⟩

end World.Resembles

/-- `r.Alike f g r'`: the endings are equal except for sites, and the sites of `r` have the same
images under `f` as those of `r'` under `g`. -/
inductive Ending.Alike (f g : Site → Site) : Ending → Ending → Prop where
  | ok (v : Value) : Alike f g (.ok v) (.ok v)
  | refused (cause : Cause) {site site' : Site} {sites sites' : List Site}
      {stack stack' : List Value} (hsite : g site' = f site)
      (hsites : sites'.map g = sites.map f) :
      Alike f g (.error ⟨.refused cause, site :: sites, stack⟩)
        (.error ⟨.refused cause, site' :: sites', stack'⟩)
  | failed {e : RunError} {sites sites' : List Site} {stack stack' : List Value}
      (he : e.viewed g = e.viewed f) :
      Alike f g (.error ⟨.failed e, sites, stack⟩) (.error ⟨.failed e, sites', stack'⟩)
  | crashed {sites sites' : List Site} {stack stack' : List Value} :
      Alike f g (.error ⟨.crashed, sites, stack⟩) (.error ⟨.crashed, sites', stack'⟩)

theorem Ending.Alike.outcome {f g : Site → Site} {r r' : Ending} (h : r.Alike f g r') :
    r'.outcome.viewed g = r.outcome.viewed f := by
  cases h with
  | ok v => rfl
  | refused cause hsite hsites =>
    simp [Ending.outcome, Outcome.viewed, RunError.viewed, hsite, hsites]
  | failed he => exact congrArg (Outcome.error .null) he
  | crashed => rfl

namespace Native

/-- The procedure does not distinguish runs of `p` from runs of `q`. An error of a nested run has
the same image under both views. -/
structure Impartial (p q : Program) (f g : Site → Site) (n : Native) : Prop where
  program : ∀ (m : Machine) args,
    n.handler (m.load (some q)) args = n.handler (m.load (some p)) args
  reply : ∀ m args e, (n.handler m args).2 = .failed e → e.viewed g = e.viewed f
  unobservant : n.Unobservant

theorem Aloof.impartial {n : Native} (ha : n.Aloof) (hu : n.Unobservant) (p q : Program)
    (f g : Site → Site) : n.Impartial p q f g where
  program m args := (ha.program m (some q) args).trans (ha.program m (some p) args).symm
  reply m args e he := absurd he (ha.reply m args e)
  unobservant := hu

end Native

namespace Context

def load (ctx : Context) (p : Program) : Context :=
  { ctx with program := some p }

@[simp] theorem natives_load (ctx : Context) (p : Program) : (ctx.load p).natives = ctx.natives :=
  rfl

@[simp] theorem maxFrames_load (ctx : Context) (p : Program) :
    (ctx.load p).maxFrames = ctx.maxFrames := rfl

theorem limited_iff {w w' : World} (h : w.Resembles w') (ctx : Context) (p : Program) :
    (0 < (ctx.load p).limit ∧ (ctx.load p).limit < w'.counted.executed) ↔
      (0 < ctx.limit ∧ ctx.limit < w.counted.executed) := by
  rw [h.counted.executed]
  rfl

/-- Equal results in resembling worlds; `failure` is the failure in an error. -/
structure Concurs {ε α : Type} (failure : ε → Failure) (f g : Site → Site)
    (r r' : World × Except ε α) : Prop where
  world : r.1.Resembles r'.1
  result : r'.2 = r.2
  failed : ∀ a e, r.2 = .error a → failure a = .failed e → e.viewed g = e.viewed f

variable {f g : Site → Site} {ctx : Context} {p q : Program} {w w' : World}

theorem Concurs.ok {ε α : Type} {failure : ε → Failure} (hw : w.Resembles w') (a : α) :
    Concurs failure f g (w, .ok a) (w', .ok a) :=
  ⟨hw, rfl, fun _ _ h => nomatch h⟩

theorem Concurs.error {α : Type} (hw : w.Resembles w') {failure : Failure}
    (hf : ∀ e, failure = .failed e → e.viewed g = e.viewed f) (stack : List Value) :
    Concurs Prod.fst f g (w, (.error (failure, stack) : Except (Failure × List Value) α))
      (w', .error (failure, stack)) := by
  refine ⟨hw, rfl, ?_⟩
  intro a e ha he
  cases ha
  exact hf e he

theorem Concurs.refused {α : Type} (hw : w.Resembles w') (cause : Cause) (stack : List Value) :
    Concurs Prod.fst f g (w, (.error (.refused cause, stack) : Except (Failure × List Value) α))
      (w', .error (.refused cause, stack)) := by
  apply Concurs.error hw
  intro e he
  cases he

theorem Concurs.crashed {α : Type} (hw : w.Resembles w') (stack : List Value) :
    Concurs Prod.fst f g (w, (.error (.crashed, stack) : Except (Failure × List Value) α))
      (w', .error (.crashed, stack)) := by
  apply Concurs.error hw
  intro e he
  cases he

/-- Impartial procedures give equal results in resembling worlds. -/
theorem answer_concurs {native : Native} (hn : native.Impartial p q f g)
    (hctx : ctx.program = some p) (args : List Value) (hw : w.Resembles w') :
    Concurs id f g (ctx.answer native args w) ((ctx.load q).answer native args w') := by
  obtain ⟨hreply, hout⟩ :=
    hn.unobservant ((ctx.load q).host w) w'.console.trace w'.console.log args
  have hhost : (ctx.load q).host w' =
      { (ctx.load q).host w with
        console := { w.console with trace := w'.console.trace, log := w'.console.log } } := by
    unfold host
    dsimp only
    rw [hw.globals, ← hw.out]
  have hhandler :
      native.handler ((ctx.load q).host w) args = native.handler (ctx.host w) args := by
    have hload : (ctx.host w).load (some p) = ctx.host w := by
      unfold host Machine.load
      rw [← hctx]
    rw [← hload]
    exact hn.program (ctx.host w) args
  rw [hhandler] at hreply hout
  unfold answer
  rw [hhost]
  refine ⟨⟨hw.globals, hout, hw.executed⟩, congrArg Reply.result hreply, ?_⟩
  intro a e ha he
  have hfailed : (native.handler (ctx.host w) args).2.result = .error (.failed e) := by
    rw [← he]
    exact ha
  exact hn.reply (ctx.host w) args e (Reply.result_eq_failed_iff.1 hfailed)

section

variable (hn : ∀ n ∈ ctx.natives.callable, n.Impartial p q f g) (hctx : ctx.program = some p)

include hn hctx

theorem invoke_concurs (name : Bytes) (arity : Int) (stack : List Value) (hw : w.Resembles w') :
    Concurs Prod.fst f g (ctx.invoke name arity stack w)
      ((ctx.load q).invoke name arity stack w') := by
  unfold invoke
  rw [natives_load, hw.globals]
  cases hname : ctx.natives.callable? name with
  | none =>
    dsimp only
    split
    · exact .refused hw _ stack
    · exact .refused hw _ stack
  | some native =>
    dsimp only
    split
    · exact .refused hw _ stack
    · split
      · exact .refused hw _ stack
      · split
        · exact .crashed hw stack
        · have hmem := Registry.mem_of_callable? hname
          obtain ⟨hworld, hresult, hfailed⟩ := answer_concurs (hn native hmem) hctx
            (stack.take arity.toNat).reverse hw
          generalize ctx.answer native _ w = r at hworld hresult hfailed ⊢
          generalize (ctx.load q).answer native _ w' = r' at hworld hresult ⊢
          obtain ⟨v, r⟩ := r
          obtain ⟨v', r'⟩ := r'
          cases hresult
          cases r with
          | ok u => exact .ok hworld _
          | error failure => exact .error hworld (fun e he => hfailed failure e rfl he) _

theorem perform_concurs (l : Local) (op : Op) (hw : w.Resembles w') :
    Concurs Prod.fst f g (ctx.perform l w op) ((ctx.load q).perform l w' op) := by
  unfold perform
  cases op with
  | push id => exact .ok hw l
  | immediate v => exact .ok hw _
  | lookup name =>
    cases l.pending with
    | none => exact .ok hw _
    | some pending => exact .refused hw _ _
  | load =>
    cases l.pending with
    | none => exact .refused hw _ _
    | some name =>
      dsimp only
      rw [hw.globals]
      cases w.globals.find? name with
      | none => exact .refused hw _ _
      | some v => exact .ok hw _
  | define name =>
    cases l.stack with
    | nil => exact .refused hw _ _
    | cons v rest =>
      dsimp only
      cases v.write? with
      | none => exact .crashed (hw.bind name v) rest
      | some text => exact .ok ((hw.bind name v).logged _ _) _
  | call arity =>
    cases l.pending with
    | none => exact .refused hw _ _
    | some name => exact invoke_concurs hn hctx name arity l.stack hw
  | invalid code => exact .refused hw _ _

end

end Context

structure Alike (f g : Site → Site) (r r' : World × Ending) : Prop where
  world : r.1.Resembles r'.1
  ending : r.2.Alike f g r'.2

theorem alike_refused {f g : Site → Site} {w w' : World} (hw : w.Resembles w') (cause : Cause)
    {site site' : Site} (hsite : g site' = f site) (stack stack' : List Value) :
    Alike f g (w, .error ⟨.refused cause, [site], stack⟩)
      (w', .error ⟨.refused cause, [site'], stack'⟩) :=
  ⟨hw, .refused cause hsite rfl⟩

namespace Program.Corresponds

variable {p q : Program} {places : Nat} {f g : Site → Site} {ctx : Context}

section

variable {depth : Nat} {id : Int} {c d : Chunk} {ip : Nat} {l : Local} {w w' : World}
  (hcd : c.Corresponds places f g d)

include hcd

theorem alike_end (hip : ip = c.code.length) (hl : ip = 0 → l.pending = none)
    (hw : w.Resembles w') :
    Alike f g (ctx.proceed depth c ip l w) ((ctx.load q).proceed depth d ip l w') := by
  have hend : ¬ip < c.code.length := by omega
  have hend' : ¬ip < d.code.length := by rwa [hcd.code, List.length_map]
  rw [Context.proceed, Context.proceed, dif_neg hend, dif_neg hend']
  cases hpending : l.pending with
  | none => exact ⟨hw.logged _ _, .ok _⟩
  | some name =>
    have hpos : ip ≠ 0 := by
      intro hzero
      rw [hl hzero] at hpending
      cases hpending
    have hlast : (ip : Int) - 1 = (ip - 1 : Nat) := by omega
    dsimp only
    rw [hlast]
    exact alike_refused hw _ (hcd.site (by omega)) _ _

/-- The push case, given the runs of the callee and of the caller with a value. -/
theorem alike_push (h : p.Corresponds places f g q) (hctx : ctx.program = some p)
    (hc : p.chunk? id = some (some c)) {target : Int} (hop : c.code[ip]? = some (.push target))
    (hlimit : ¬(0 < ctx.limit ∧ ctx.limit < w.counted.executed)) (hw : w.Resembles w')
    (hinner : ∀ {callee callee' : Chunk}, p.chunk? target = some (some callee) →
      callee.Corresponds places f g callee' → depth < ctx.maxFrames →
      ∀ {w w' : World}, w.Resembles w' →
        Alike f g (ctx.activate (depth + 1) callee w)
          ((ctx.load q).activate (depth + 1) callee' w'))
    (hnext : ∀ (v : Value) {w w' : World}, w.Resembles w' →
      let l := { l with stack := v :: l.stack }
      Alike f g (ctx.proceed depth c (ip + 1) l w) ((ctx.load q).proceed depth d (ip + 1) l w')) :
    Alike f g (ctx.proceed depth c ip l w) ((ctx.load q).proceed depth d ip l w') := by
  obtain ⟨callee, hcallee⟩ := h.closed hc (List.mem_of_getElem? hop)
  obtain ⟨callee', hcallee', hcorresponds⟩ := h.chunk hcallee
  obtain ⟨hip, -⟩ := List.getElem?_eq_some_iff.1 hop
  have hop' : d.code[ip]? = some (.push (target + places)) := hcd.getElem? hop
  have hlimit' := mt (Context.limited_iff hw ctx q).1 hlimit
  have hbegun := hw.begun depth c d ip (.push target) (.push (target + places))
  rw [Context.proceed_push l hop hlimit, Context.proceed_push l hop' hlimit',
    Context.chunk?_eq hctx, Context.chunk?_eq rfl, hcallee, hcallee']
  dsimp only
  rw [Context.maxFrames_load]
  by_cases hroom : ctx.maxFrames ≤ depth
  · rw [if_pos hroom, if_pos hroom]
    exact alike_refused hbegun _ (hcd.site hip) _ _
  · rw [if_neg hroom, if_neg hroom]
    obtain ⟨hworld, hending⟩ :=
      hinner hcallee hcorresponds (Nat.lt_of_not_le hroom) hbegun
    generalize ctx.activate (depth + 1) callee _ = r at hworld hending ⊢
    generalize (ctx.load q).activate (depth + 1) callee' _ = r' at hworld hending ⊢
    obtain ⟨v, r⟩ := r
    obtain ⟨v', r'⟩ := r'
    cases hending with
    | ok v => exact hnext v hworld
    | @refused cause site site' sites sites' stack stack' hsite hsites =>
      have hopen : (sites' ++ [d.siteAt ip]).map g = (sites ++ [c.siteAt ip]).map f := by
        rw [List.map_append, List.map_append, hsites, List.map_singleton, List.map_singleton,
          hcd.site hip]
      exact ⟨hworld, .refused cause hsite hopen⟩
    | failed he => exact ⟨hworld, .failed he⟩
    | crashed => exact ⟨hworld, .crashed⟩

theorem alike_perform (hctx : ctx.program = some p)
    (hn : ∀ n ∈ ctx.natives.callable, n.Impartial p q f g) {op : Op} (hop : c.code[ip]? = some op)
    (hpush : ∀ target, op ≠ .push target)
    (hlimit : ¬(0 < ctx.limit ∧ ctx.limit < w.counted.executed)) (hw : w.Resembles w')
    (hnext : ∀ (l : Local) {w w' : World}, w.Resembles w' →
      Alike f g (ctx.proceed depth c (ip + 1) l w) ((ctx.load q).proceed depth d (ip + 1) l w')) :
    Alike f g (ctx.proceed depth c ip l w) ((ctx.load q).proceed depth d ip l w') := by
  obtain ⟨hip, -⟩ := List.getElem?_eq_some_iff.1 hop
  have hop' := hcd.getElem? hop
  rw [Op.relocate_of_ne_push hpush] at hop'
  have hlimit' := mt (Context.limited_iff hw ctx q).1 hlimit
  have hbegun := hw.begun depth c d ip op op
  obtain ⟨hworld, hresult, hfailed⟩ := Context.perform_concurs hn hctx l op hbegun
  rw [Context.proceed_perform l hop hlimit hpush, Context.proceed_perform l hop' hlimit' hpush]
  generalize ctx.perform l _ op = r at hworld hresult hfailed ⊢
  generalize (ctx.load q).perform l _ op = r' at hworld hresult ⊢
  obtain ⟨v, r⟩ := r
  obtain ⟨v', r'⟩ := r'
  cases hresult
  cases r with
  | ok l => exact hnext l hworld
  | error a =>
    obtain ⟨failure, stack⟩ := a
    cases failure with
    | refused cause => exact alike_refused hworld _ (hcd.site hip) _ _
    | failed e => exact ⟨hworld, .failed (hfailed _ e rfl rfl)⟩
    | crashed => exact ⟨hworld, .crashed⟩

end

/-- Corresponding code has corresponding effects, from any instruction on. -/
theorem alike_proceed (h : p.Corresponds places f g q) (hctx : ctx.program = some p)
    (hn : ∀ n ∈ ctx.natives.callable, n.Impartial p q f g) {depth : Nat} {id : Int} {c d : Chunk}
    (hc : p.chunk? id = some (some c)) (hcd : c.Corresponds places f g d) {ip : Nat}
    (hle : ip ≤ c.code.length) {l : Local} (hl : ip = 0 → l.pending = none) {w w' : World}
    (hw : w.Resembles w') :
    Alike f g (ctx.proceed depth c ip l w) ((ctx.load q).proceed depth d ip l w') := by
  cases hop : c.code[ip]? with
  | none =>
    have hend : c.code.length ≤ ip := List.getElem?_eq_none_iff.1 hop
    exact alike_end hcd (Nat.le_antisymm hle hend) hl hw
  | some op =>
    obtain ⟨hip, -⟩ := List.getElem?_eq_some_iff.1 hop
    by_cases hlimit : 0 < ctx.limit ∧ ctx.limit < w.counted.executed
    · have hlimit' := (Context.limited_iff hw ctx q).2 hlimit
      rw [Context.proceed_limited l hop hlimit,
        Context.proceed_limited l (hcd.getElem? hop) hlimit']
      exact alike_refused hw.counted _ (hcd.site hip) _ _
    · by_cases hpush : ∃ target, op = .push target
      · obtain ⟨target, rfl⟩ := hpush
        refine alike_push hcd h hctx hc hop hlimit hw ?_ ?_
        · intro callee callee' hcallee hcorresponds hroom w w' hw
          rw [Context.activate, Context.activate]
          exact alike_proceed h hctx hn hcallee hcorresponds (Nat.zero_le _) (fun _ => rfl)
            (hw.logged _ _)
        · intro v w w' hw
          exact alike_proceed h hctx hn hc hcd hip (fun hzero => nomatch hzero) hw
      · refine alike_perform hcd hctx hn hop (fun target h => hpush ⟨target, h⟩) hlimit hw ?_
        intro l w w' hw
        exact alike_proceed h hctx hn hc hcd hip (fun hzero => nomatch hzero) hw
termination_by (ctx.maxFrames - depth, c.code.length - ip)

end Program.Corresponds

namespace Machine

/-- Machines with the same settings, bindings and output. -/
structure Resembles (m n : Machine) : Prop where
  toSettings : n.toSettings = m.toSettings
  globals : n.globals = m.globals
  out : n.console.out = m.console.out

namespace Resembles

theorem refl (m : Machine) : m.Resembles m :=
  ⟨rfl, rfl, rfl⟩

variable {m n : Machine} {natives : Registry} {p q : Program} {places : Nat} {f g : Site → Site}

theorem load (h : m.Resembles n) (p q : Option Program) : (m.load p).Resembles (n.load q) :=
  ⟨h.toSettings, h.globals, h.out⟩

theorem context_eq (h : m.Resembles n) (hq : n.program = some q) (natives : Registry) :
    n.context natives = (m.context natives).load q := by
  unfold context Context.load
  rw [hq, h.toSettings]

theorem world (h : m.Resembles n) :
    World.Resembles ⟨m.globals, m.console, 0⟩ ⟨n.globals, n.console, 0⟩ :=
  ⟨h.globals, h.out, rfl⟩

section

variable (hn : ∀ n ∈ natives.callable, n.Impartial p q f g) (hpq : p.Corresponds places f g q)

include hn hpq

theorem execute (h : m.Resembles n) (hp : m.program = some p) (hq : n.program = some q)
    {id : Int} {c d : Chunk} (hc : p.chunk? id = some (some c))
    (hcd : c.Corresponds places f g d) :
    let r := m.execute natives (some c)
    let s := n.execute natives (some d)
    r.1.Resembles s.1 ∧ s.2.viewed g = r.2.viewed f := by
  have hstart := h.world.logged (.pushFrame c.id 1) (.pushFrame d.id 1)
  have halike := @Program.Corresponds.alike_proceed p q places f g (m.context natives) hpq hp hn 1
    id c d hc hcd 0 (Nat.zero_le _) {} (fun _ => rfl) _ _ hstart
  rw [← Context.activate, ← Context.activate, ← h.context_eq hq] at halike
  obtain ⟨hworld, hending⟩ := halike
  rw [execute_eq, execute_eq]
  unfold interpret
  dsimp only
  exact ⟨⟨h.toSettings, hworld.globals, hworld.out⟩, hending.outcome⟩

/-- Corresponding entries have corresponding effects. The value so far matters only if there is no
entry. -/
theorem runEntries (h : m.Resembles n) (hp : m.program = some p) (hq : n.program = some q)
    (last last' : Value) {ids : List Int} (hids : ∀ id ∈ ids, ∃ c, p.chunk? id = some (some c)) :
    let r := m.runEntries natives p last ids
    let s := n.runEntries natives q last' (ids.map (· + (places : Int)))
    r.1.Resembles s.1 ∧ s.2.viewed g = if ids = [] then .value last' else r.2.viewed f := by
  induction ids generalizing m n last last' with
  | nil => exact ⟨h, rfl⟩
  | cons id ids ih =>
    obtain ⟨⟨c, hc⟩, hids⟩ := List.forall_mem_cons.1 hids
    obtain ⟨d, hd, hcd⟩ := hpq.chunk hc
    obtain ⟨hmachine, houtcome⟩ := h.execute hn hpq hp hq hc hcd
    have hr : (m.execute natives (some c)).1.program = some p := hp
    have hs : (n.execute natives (some d)).1.program = some q := hq
    simp only [List.map_cons, Machine.runEntries, hc, hd, if_neg (List.cons_ne_nil _ _)]
    generalize m.execute natives (some c) = r at hmachine houtcome hr ⊢
    generalize n.execute natives (some d) = s at hmachine houtcome hs ⊢
    obtain ⟨r, outcome⟩ := r
    obtain ⟨s, outcome'⟩ := s
    dsimp only at houtcome
    cases outcome with
    | value v =>
      have hvalue : outcome' = .value v := Outcome.viewed_eq_value_iff.1 houtcome
      subst hvalue
      obtain ⟨hrest, hvalue⟩ := ih hmachine hr hs v v hids
      refine ⟨hrest, hvalue.trans ?_⟩
      cases ids with
      | nil => rfl
      | cons => rfl
    | error v e =>
      cases outcome' with
      | value | crash => cases houtcome
      | error v' e' => exact ⟨hmachine, houtcome⟩
    | crash =>
      cases outcome' with
      | value | error => cases houtcome
      | crash => exact ⟨hmachine, rfl⟩

end

theorem runEntries_zero (hn : ∀ n ∈ natives.callable, n.Impartial p q f g)
    (hpq : p.Corresponds 0 f g q) (h : m.Resembles n) (hp : m.program = some p)
    (hq : n.program = some q) (last : Value) {ids : List Int}
    (hids : ∀ id ∈ ids, ∃ c, p.chunk? id = some (some c)) :
    let r := m.runEntries natives p last ids
    let s := n.runEntries natives q last ids
    r.1.Resembles s.1 ∧ s.2.viewed g = r.2.viewed f := by
  have hrun := h.runEntries hn hpq hp hq last last hids
  simp only [Int.natCast_zero, Int.add_zero, List.map_id'] at hrun
  obtain ⟨hmachine, houtcome⟩ := hrun
  refine ⟨hmachine, houtcome.trans ?_⟩
  cases ids with
  | nil => rfl
  | cons => rfl

end Resembles

end Machine

end MiniScheme
