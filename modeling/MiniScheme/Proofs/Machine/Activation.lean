import MiniScheme.Proofs.Machine.Frames
import MiniScheme.Proofs.Machine.Solid

/-! The recursive interpreter. Every activation of a chunk has its own value stack and pending name,
and a nested activation is a recursive call. The machine, whose frames share one stack, refines
it. -/
namespace MiniScheme

def Chunk.siteAt (c : Chunk) (offset : Int) : Site :=
  ⟨c.id, lineAt c.lines offset, offset⟩

structure World where
  globals : Globals
  console : Console
  executed : Nat

structure Local where
  stack : List Value := []
  pending : Option Bytes := none

/-- A failure, with the sites and the stacks of the activations that were open then, innermost
first. -/
structure Abort where
  failure : Failure
  sites : List Site
  stack : List Value

/-- The failure as seen from outer activations. -/
def Abort.under (a : Abort) (sites : List Site) (stack : List Value) : Abort :=
  { a with sites := a.sites ++ sites, stack := a.stack ++ stack }

theorem Abort.under_under (a : Abort) (sites sites' : List Site) (stack stack' : List Value) :
    (a.under sites stack).under sites' stack' = a.under (sites ++ sites') (stack ++ stack') := by
  simp only [under, List.append_assoc]

abbrev Ending := Except Abort Value

namespace World

def logged (w : World) (event : LogEvent) : World :=
  { w with console := w.console.logged event }

def counted (w : World) : World :=
  { w with executed := w.executed + 1 }

def traced (w : World) (event : TraceEvent) : World :=
  { w with console := w.console.traced event }

end World

namespace Ending

def sites : Ending → List Site
  | .ok _ => []
  | .error a => a.sites

def stack : Ending → List Value
  | .ok _ => []
  | .error a => a.stack

/-- A cause is reported at the innermost site. -/
def outcome : Ending → Outcome
  | .ok v => .value v
  | .error ⟨.refused cause, sites, _⟩ => .error .null ⟨cause, sites.headD .none, sites⟩
  | .error ⟨.failed e, _, _⟩ => .error .null e
  | .error ⟨.crashed, _, _⟩ => .crash

end Ending

/-- What a run leaves whose first activation ends so. -/
def World.ended (w : World) (ending : Ending) : Halt :=
  ⟨w.globals, w.console, ending.stack, ending.sites, w.executed, ending.outcome⟩

namespace Context

def host (ctx : Context) (w : World) : Machine :=
  { ctx.toSettings with globals := w.globals, program := ctx.program, console := w.console }

def answer (ctx : Context) (native : Native) (args : List Value) (w : World) :
    World × Except Failure Value :=
  let r := native.handler (ctx.host w) args
  ({ w with console := r.1 }, r.2.result)

/-- Applies the procedure of a name to the topmost values. An error comes with the remaining
values. -/
def invoke (ctx : Context) (name : Bytes) (arity : Int) (stack : List Value) (w : World) :
    World × Except (Failure × List Value) Local :=
  match ctx.natives.callable? name with
  | none =>
    if (w.globals.find? name).isSome then (w, .error (.refused (.notProcedure name), stack))
    else (w, .error (.refused (.unknownProcedure name), stack))
  | some native =>
    if arity ≠ native.arity then (w, .error (.refused (.arity name native.arity arity), stack))
    else if stack.length < arity then
      (w, .error (.refused (.callUnderflow name arity stack.length), stack))
    else if arity < 0 then (w, .error (.crashed, stack))
    else
      let rest := stack.drop arity.toNat
      match ctx.answer native (stack.take arity.toNat).reverse w with
      | (w, .ok v) => (w, .ok { stack := v :: rest })
      | (w, .error failure) => (w, .error (failure, rest))

/-- Carries out one instruction. A push is left to `proceed`. -/
def perform (ctx : Context) (l : Local) (w : World) :
    Op → World × Except (Failure × List Value) Local
  | .push _ => (w, .ok l)
  | .immediate v => (w, .ok { l with stack := v :: l.stack })
  | .lookup name =>
    match l.pending with
    | some pending => (w, .error (.refused (.lookupWhilePending name pending), l.stack))
    | none => (w, .ok { l with pending := some name })
  | .load =>
    match l.pending with
    | none => (w, .error (.refused .loadWithoutLookup, l.stack))
    | some name =>
      match w.globals.find? name with
      | none => (w, .error (.refused (.unbound name), l.stack))
      | some v => (w, .ok { stack := v :: l.stack })
  | .define name =>
    match l.stack with
    | [] => (w, .error (.refused .stackUnderflow, []))
    | v :: rest =>
      let w := { w with globals := w.globals.bind name v }
      match v.write? with
      | none => (w, .error (.crashed, rest))
      | some text => (w.logged (.defineGlobal name text), .ok { l with stack := rest })
  | .call arity =>
    match l.pending with
    | none => (w, .error (.refused .callWithoutLookup, l.stack))
    | some name => ctx.invoke name arity l.stack w
  | .invalid code => (w, .error (.refused (.invalidOpcode code), l.stack))

mutual

/-- Runs a chunk with `depth` open activations, this one included. -/
def activate (ctx : Context) (depth : Nat) (chunk : Chunk) (w : World) : World × Ending :=
  ctx.proceed depth chunk 0 {} (w.logged (.pushFrame chunk.id depth))
termination_by (ctx.maxFrames - depth, chunk.code.length + 1)

def proceed (ctx : Context) (depth : Nat) (chunk : Chunk) (ip : Nat) (l : Local) (w : World) :
    World × Ending :=
  if _hip : ip < chunk.code.length then
    let op := chunk.code[ip]
    let site := chunk.siteAt ip
    let w := w.counted
    if 0 < ctx.limit ∧ ctx.limit < w.executed then
      (w, .error ⟨.refused .instructionLimit, [site], l.stack⟩)
    else
      let w := w.traced ⟨site, depth, op⟩
      match op with
      | .push id =>
        match ctx.chunk? id with
        | none => (w, .error ⟨.refused (.unknownChunk id), [site], l.stack⟩)
        | some target =>
          if _hroom : ctx.maxFrames ≤ depth then
            (w, .error ⟨.refused (.frameOverflow ctx.maxFrames), [site], l.stack⟩)
          else
            match target with
            | none => (w, .error ⟨.crashed, [.none, site], l.stack⟩)
            | some callee =>
              match ctx.activate (depth + 1) callee w with
              | (w, .ok v) => ctx.proceed depth chunk (ip + 1) { l with stack := v :: l.stack } w
              | (w, .error a) => (w, .error (a.under [site] l.stack))
      | op =>
        match ctx.perform l w op with
        | (w, .ok l) => ctx.proceed depth chunk (ip + 1) l w
        | (w, .error (failure, stack)) => (w, .error ⟨failure, [site], stack⟩)
  else
    match l.pending with
    | some name =>
      (w, .error ⟨.refused (.unusedReference name), [chunk.siteAt (ip - 1)], l.stack⟩)
    | none =>
      (w.logged (.popFrame chunk.id depth (l.stack.length - 1)), .ok (l.stack.headD .null))
termination_by (ctx.maxFrames - depth, chunk.code.length - ip)
decreasing_by
  · exact Prod.Lex.left _ _ (by omega)
  · exact Prod.Lex.right _ (by omega)
  · exact Prod.Lex.right _ (by omega)

end

end Context

/-- Runs one chunk against the globals by recursion. -/
def Machine.interpret (m : Machine) (natives : Registry) (chunk : Chunk) : Machine × Outcome :=
  let (w, ending) := (m.context natives).activate 1 chunk ⟨m.globals, m.console, 0⟩
  (m.halted (w.ended ending), ending.outcome)

/-- The machine during an activation, where `below` are the values of the activations of
`callers`. -/
def Local.state (l : Local) (w : World) (chunk : Chunk) (ip : Nat) (below : List Value)
    (callers : List Frame) : State :=
  { globals := w.globals
    console := w.console
    stack := l.stack ++ below
    frame := { chunk, ip, base := below.length, pending := l.pending }
    callers
    executed := w.executed }

namespace Context

/-- What the machine does after an activation has ended. -/
def resume (ctx : Context) (below : List Value) (callers : List Frame) : World × Ending → Halt
  | (w, .ok v) =>
    match callers with
    | [] => ⟨w.globals, w.console, below, [], w.executed, .value v⟩
    | caller :: callers =>
      ctx.run
        { globals := w.globals
          console := w.console
          stack := v :: below
          frame := caller
          callers
          executed := w.executed }
  | (w, .error a) => w.ended (.error (a.under (callers.map Frame.site) below))

variable (ctx : Context) (chunk : Chunk) (ip : Nat) (l : Local) (w : World) (below : List Value)
  (callers : List Frame)

theorem site_state :
    (l.state w chunk (ip + 1) below callers).frame.site =
      chunk.siteAt ip := by
  simp [Local.state, Frame.site, Chunk.siteAt]

theorem sites_state :
    (l.state w chunk (ip + 1) below callers).sites =
      chunk.siteAt ip :: callers.map Frame.site := by
  unfold State.sites
  rw [site_state]
  rfl

@[simp] theorem globals_state : (l.state w chunk ip below callers).globals = w.globals := rfl

@[simp] theorem stack_state : (l.state w chunk ip below callers).stack = l.stack ++ below := rfl

@[simp] theorem pending_state : (l.state w chunk ip below callers).frame.pending = l.pending := rfl

@[simp] theorem depth_state : (l.state w chunk ip below callers).depth = callers.length + 1 := rfl

@[simp] theorem logged_state (event : LogEvent) :
    (l.state w chunk ip below callers).logged event =
      l.state (w.logged event) chunk ip below callers := rfl

theorem height_state : (l.state w chunk ip below callers).height = l.stack.length := by
  simp [State.height, Local.state]

def performed (r : World × Except (Failure × List Value) Local) : Step :=
  match r with
  | (w, .ok l) => .next (l.state w chunk (ip + 1) below callers)
  | (w, .error (failure, stack)) =>
    .halt (w.ended (.error
      ⟨failure, chunk.siteAt ip :: callers.map Frame.site, stack ++ below⟩))

theorem fail_state (cause : Cause) :
    (l.state w chunk (ip + 1) below callers).fail cause =
      performed chunk ip below callers (w, .error (.refused cause, l.stack)) := by
  unfold State.fail
  rw [sites_state, site_state]
  rfl

theorem pass_state (e : RunError) :
    (l.state w chunk (ip + 1) below callers).pass e =
      performed chunk ip below callers (w, .error (.failed e, l.stack)) := by
  unfold State.pass
  rw [sites_state]
  rfl

theorem crash_state :
    (l.state w chunk (ip + 1) below callers).crash false =
      performed chunk ip below callers (w, .error (.crashed, l.stack)) := by
  unfold State.crash
  rw [sites_state]
  rfl

theorem apply_state (native : Native) {arity : Nat} (hle : arity ≤ l.stack.length) :
    ctx.apply (l.state w chunk (ip + 1) below callers) native arity =
      performed chunk ip below callers
        (match ctx.answer native (l.stack.take arity).reverse w with
        | (w, .ok v) => (w, .ok { l with stack := v :: l.stack.drop arity })
        | (w, .error failure) => (w, .error (failure, l.stack.drop arity))) := by
  have htake : (l.stack ++ below).take arity = l.stack.take arity :=
    List.take_append_of_le_length hle
  have hdrop : (l.stack ++ below).drop arity = l.stack.drop arity ++ below :=
    List.drop_append_of_le_length hle
  have hmachine : ctx.machine (l.state w chunk (ip + 1) below callers) = ctx.host w := rfl
  rw [apply_eq, stack_state, htake, hdrop, hmachine]
  unfold answer
  generalize native.handler (ctx.host w) (l.stack.take arity).reverse = r
  obtain ⟨console, reply⟩ := r
  let rest : Local := { l with stack := l.stack.drop arity }
  cases reply with
  | value v => rfl
  | refused cause => exact fail_state chunk ip rest { w with console } below callers cause
  | failed e => exact pass_state chunk ip rest { w with console } below callers e
  | crashed => exact crash_state chunk ip rest { w with console } below callers

theorem invoke_state (name : Bytes) (arity : Int) :
    ctx.call ((l.state w chunk (ip + 1) below callers).setPending none) name arity =
      performed chunk ip below callers (ctx.invoke name arity l.stack w) := by
  have hfail (cause : Cause) := fail_state chunk ip { stack := l.stack } w below callers cause
  have hheight := height_state chunk (ip + 1) { stack := l.stack } w below callers
  have hstate : (l.state w chunk (ip + 1) below callers).setPending none =
      ({ stack := l.stack } : Local).state w chunk (ip + 1) below callers := rfl
  rw [hstate]
  unfold call invoke
  cases hn : ctx.natives.callable? name with
  | none =>
    dsimp only
    rw [globals_state]
    split
    · exact hfail _
    · exact hfail _
  | some native =>
    dsimp only
    rw [hheight]
    split
    · exact hfail _
    · split
      · exact hfail _
      · rename_i hle
        split
        · exact crash_state chunk ip { stack := l.stack } w below callers
        · exact apply_state ctx chunk ip { stack := l.stack } w below callers native (by omega)

theorem dispatch_state {op : Op} (hop : ∀ id, op ≠ .push id) :
    ctx.dispatch (l.state w chunk (ip + 1) below callers) op =
      performed chunk ip below callers (ctx.perform l w op) := by
  have hfail (l : Local) (cause : Cause) := fail_state chunk ip l w below callers cause
  unfold dispatch perform
  cases op with
  | push id => exact absurd rfl (hop id)
  | immediate v => rfl
  | lookup name =>
    dsimp only
    rw [pending_state]
    cases l.pending with
    | none => rfl
    | some pending => exact hfail ..
  | load =>
    dsimp only
    rw [pending_state]
    cases l.pending with
    | none => exact hfail ..
    | some name =>
      dsimp only
      rw [globals_state]
      cases w.globals.find? name with
      | none => exact hfail { stack := l.stack } _
      | some v => rfl
  | define name =>
    obtain ⟨stack, pending⟩ := l
    dsimp only
    unfold State.bindTop
    rw [stack_state, height_state]
    cases stack with
    | nil =>
      cases below with
      | nil => exact hfail ..
      | cons v rest => exact hfail ..
    | cons v rest =>
      simp only [List.cons_append, List.length_cons, Nat.succ_ne_zero, if_false]
      cases v.write? with
      | none =>
        exact crash_state chunk ip { stack := rest, pending }
          { w with globals := w.globals.bind name v } below callers
      | some text => rfl
  | call arity =>
    dsimp only
    rw [pending_state]
    cases l.pending with
    | none => exact hfail ..
    | some name => exact invoke_state ctx chunk ip l w below callers name arity
  | invalid code => exact hfail ..

def begun (depth : Nat) (chunk : Chunk) (ip : Nat) (op : Op) (w : World) : World :=
  w.counted.traced ⟨chunk.siteAt ip, depth, op⟩

theorem step_state {depth : Nat} (hd : callers.length + 1 = depth) {op : Op}
    (hop : chunk.code[ip]? = some op) :
    ctx.step (l.state w chunk ip below callers) =
      if 0 < ctx.limit ∧ ctx.limit < w.counted.executed then
        performed chunk ip below callers
          (w.counted, .error (.refused .instructionLimit, l.stack))
      else
        ctx.dispatch (l.state (begun depth chunk ip op w) chunk (ip + 1) below callers) op := by
  have hadvance : (l.state w chunk ip below callers).advance =
      l.state w.counted chunk (ip + 1) below callers := rfl
  have hcount : (l.state w chunk ip below callers).executed + 1 = w.counted.executed := rfl
  replace hop : (l.state w chunk ip below callers).op? = some op := hop
  rw [step_of_op? hop, hadvance, hcount]
  by_cases hlimit : 0 < ctx.limit ∧ ctx.limit < w.counted.executed
  · rw [if_pos hlimit, if_pos hlimit]
    exact fail_state ..
  · rw [if_neg hlimit, if_neg hlimit]
    unfold State.traced begun
    rw [site_state, depth_state, hd]
    rfl

theorem enter_state (id : Int) :
    ctx.enter (l.state w chunk (ip + 1) below callers) id =
      match ctx.chunk? id with
      | none =>
        performed chunk ip below callers (w, .error (.refused (.unknownChunk id), l.stack))
      | some target =>
        if ctx.maxFrames ≤ callers.length + 1 then
          performed chunk ip below callers
            (w, .error (.refused (.frameOverflow ctx.maxFrames), l.stack))
        else
          match target with
          | none =>
            .halt (w.ended (.error
              ⟨.crashed, .none :: chunk.siteAt ip :: callers.map Frame.site, l.stack ++ below⟩))
          | some callee =>
            .next (({} : Local).state (w.logged (.pushFrame callee.id (callers.length + 2))) callee
              0 (l.stack ++ below)
              ((l.state w chunk (ip + 1) below callers).frame :: callers)) := by
  unfold enter
  cases ctx.chunk? id with
  | none => exact fail_state ..
  | some target =>
    dsimp only
    rw [depth_state]
    by_cases hroom : ctx.maxFrames ≤ callers.length + 1
    · rw [if_pos hroom, if_pos hroom]
      exact fail_state ..
    · rw [if_neg hroom, if_neg hroom]
      cases target with
      | none =>
        dsimp only
        unfold State.crash
        rw [sites_state]
        rfl
      | some callee => rfl

theorem run_end (hip : chunk.code.length ≤ ip) :
    ctx.run (l.state w chunk ip below callers) =
      ctx.resume below callers
        (match l.pending with
        | some name =>
          (w, .error ⟨.refused (.unusedReference name), [chunk.siteAt (ip - 1)], l.stack⟩)
        | none =>
          (w.logged (.popFrame chunk.id (callers.length + 1) (l.stack.length - 1)),
            .ok (l.stack.headD .null))) := by
  have hop : (l.state w chunk ip below callers).op? = none := List.getElem?_eq_none hip
  have hstep : ctx.step (l.state w chunk ip below callers) =
      match l.pending with
      | some name => (l.state w chunk ip below callers).fail (.unusedReference name)
      | none => (l.state w chunk ip below callers).finish := step_of_end hop
  cases hp : l.pending with
  | some name =>
    rw [hp] at hstep
    exact run_of_halt hstep
  | none =>
    rw [hp] at hstep
    have hresult : (if 0 < l.stack.length then (l.stack ++ below).headD .null else .null) =
        l.stack.headD .null := by
      cases l.stack <;> rfl
    have hdrop : (l.stack ++ below).drop l.stack.length = below := List.drop_left
    cases callers with
    | nil =>
      refine run_of_halt (hstep.trans ?_)
      simp only [State.finish, logged_state, height_state, stack_state, hresult, hdrop]
      rfl
    | cons caller callers =>
      refine run_of_next (hstep.trans ?_)
      simp only [State.finish, logged_state, height_state, stack_state, hresult, hdrop]
      rfl

section

variable {ctx chunk ip w} {depth : Nat} {op : Op}

theorem proceed_limited (hop : chunk.code[ip]? = some op)
    (hlimit : 0 < ctx.limit ∧ ctx.limit < w.counted.executed) :
    ctx.proceed depth chunk ip l w =
      (w.counted, .error ⟨.refused .instructionLimit, [chunk.siteAt ip], l.stack⟩) := by
  obtain ⟨hip, -⟩ := List.getElem?_eq_some_iff.1 hop
  rw [proceed, dif_pos hip]
  exact if_pos hlimit

theorem proceed_push {id : Int} (hop : chunk.code[ip]? = some (.push id))
    (hlimit : ¬(0 < ctx.limit ∧ ctx.limit < w.counted.executed)) :
    ctx.proceed depth chunk ip l w =
      match ctx.chunk? id with
      | none => (begun depth chunk ip (.push id) w,
          .error ⟨.refused (.unknownChunk id), [chunk.siteAt ip], l.stack⟩)
      | some target =>
        if ctx.maxFrames ≤ depth then
          (begun depth chunk ip (.push id) w,
            .error ⟨.refused (.frameOverflow ctx.maxFrames), [chunk.siteAt ip], l.stack⟩)
        else
          match target with
          | none => (begun depth chunk ip (.push id) w,
              .error ⟨.crashed, [.none, chunk.siteAt ip], l.stack⟩)
          | some callee =>
            match ctx.activate (depth + 1) callee (begun depth chunk ip (.push id) w) with
            | (w, .ok v) => ctx.proceed depth chunk (ip + 1) { l with stack := v :: l.stack } w
            | (w, .error a) => (w, .error (a.under [chunk.siteAt ip] l.stack)) := by
  obtain ⟨hip, hget⟩ := List.getElem?_eq_some_iff.1 hop
  rw [proceed, dif_pos hip]
  dsimp only
  rw [if_neg hlimit, hget]
  rfl

theorem proceed_perform (hop : chunk.code[ip]? = some op)
    (hlimit : ¬(0 < ctx.limit ∧ ctx.limit < w.counted.executed))
    (hpush : ∀ id, op ≠ .push id) :
    ctx.proceed depth chunk ip l w =
      match ctx.perform l (begun depth chunk ip op w) op with
      | (w, .ok l) => ctx.proceed depth chunk (ip + 1) l w
      | (w, .error (failure, stack)) => (w, .error ⟨failure, [chunk.siteAt ip], stack⟩) := by
  obtain ⟨hip, hget⟩ := List.getElem?_eq_some_iff.1 hop
  rw [proceed, dif_pos hip]
  dsimp only
  rw [if_neg hlimit, hget]
  cases op with
  | push id => exact absurd rfl (hpush id)
  | immediate | load | define | lookup | call | invalid => rfl

end

/-- The push case, given the run of the callee and that of the caller with a value. -/
theorem run_push {depth : Nat} (hd : callers.length + 1 = depth) {id : Int}
    (hop : chunk.code[ip]? = some (.push id))
    (hlimit : ¬(0 < ctx.limit ∧ ctx.limit < w.counted.executed))
    (hcallee : ∀ callee w, depth < ctx.maxFrames →
      ctx.run (({} : Local).state (w.logged (.pushFrame callee.id (depth + 1))) callee 0
          (l.stack ++ below) ((l.state w chunk (ip + 1) below callers).frame :: callers)) =
        ctx.resume (l.stack ++ below) ((l.state w chunk (ip + 1) below callers).frame :: callers)
          (ctx.activate (depth + 1) callee w))
    (hnext : ∀ v w,
      ctx.run (({ l with stack := v :: l.stack } : Local).state w chunk (ip + 1) below callers) =
        ctx.resume below callers
          (ctx.proceed depth chunk (ip + 1) { l with stack := v :: l.stack } w)) :
    ctx.run (l.state w chunk ip below callers) =
      ctx.resume below callers (ctx.proceed depth chunk ip l w) := by
  have hstep := step_state ctx chunk ip l w below callers hd hop
  rw [if_neg hlimit] at hstep
  replace hstep := hstep.trans (enter_state ctx chunk ip l _ below callers id)
  rw [proceed_push l hop hlimit]
  generalize begun depth chunk ip (.push id) w = w' at hstep ⊢
  cases hid : ctx.chunk? id with
  | none =>
    rw [hid] at hstep
    exact run_of_halt hstep
  | some target =>
    rw [hid, hd] at hstep
    dsimp only at hstep ⊢
    by_cases hroom : ctx.maxFrames ≤ depth
    · rw [if_pos hroom] at hstep ⊢
      exact run_of_halt hstep
    · rw [if_neg hroom] at hstep ⊢
      cases target with
      | none => exact run_of_halt hstep
      | some callee =>
        have hdepth : callers.length + 2 = depth + 1 := by omega
        rw [hdepth] at hstep
        rw [run_of_next hstep, hcallee callee w' (Nat.lt_of_not_le hroom)]
        dsimp only
        generalize ctx.activate (depth + 1) callee w' = r
        match r with
        | (w'', .ok v) => exact hnext v w''
        | (w'', .error a) =>
          simp only [resume, List.map_cons, site_state, Abort.under_under, List.singleton_append]

/-- The machine executes a chunk from any instruction on as the recursion does, whatever is below on
the stack. A push uses the induction hypothesis twice: for the callee, with the values of the caller
below, and for the rest of the caller. -/
theorem run_proceed (ctx : Context) (depth : Nat) (chunk : Chunk) (ip : Nat) (l : Local)
    (w : World) (below : List Value) (callers : List Frame) (hd : callers.length + 1 = depth) :
    ctx.run (l.state w chunk ip below callers) =
      ctx.resume below callers (ctx.proceed depth chunk ip l w) := by
  cases hop : chunk.code[ip]? with
  | none =>
    have hend : chunk.code.length ≤ ip := List.getElem?_eq_none_iff.1 hop
    rw [run_end ctx chunk ip l w below callers hend, hd, proceed, dif_neg (Nat.not_lt.2 hend)]
  | some op =>
    obtain ⟨hip, -⟩ := List.getElem?_eq_some_iff.1 hop
    have hstep := step_state ctx chunk ip l w below callers hd hop
    by_cases hlimit : 0 < ctx.limit ∧ ctx.limit < w.counted.executed
    · rw [if_pos hlimit] at hstep
      rw [proceed_limited l hop hlimit]
      exact run_of_halt hstep
    · by_cases hpush : ∃ id, op = .push id
      · obtain ⟨id, rfl⟩ := hpush
        refine run_push ctx chunk ip l w below callers hd hop hlimit ?_ ?_
        · intro callee w hroom
          rw [activate]
          exact run_proceed ctx (depth + 1) callee 0 {} _ _ _ (by rw [List.length_cons, hd])
        · intro v w
          exact run_proceed ctx depth chunk (ip + 1) { l with stack := v :: l.stack } w below
            callers hd
      · have hperform : ∀ id, op ≠ .push id := fun id h => hpush ⟨id, h⟩
        rw [if_neg hlimit, dispatch_state ctx chunk ip l _ below callers hperform] at hstep
        rw [proceed_perform l hop hlimit hperform]
        generalize ctx.perform l (begun depth chunk ip op w) op = r at hstep ⊢
        match r with
        | (w', .error (failure, stack)) => exact run_of_halt hstep
        | (w', .ok l') =>
          rw [run_of_next hstep]
          exact run_proceed ctx depth chunk (ip + 1) l' w' below callers hd
termination_by (ctx.maxFrames - depth, chunk.code.length - ip)

theorem run_enter (ctx : Context) (s : State) (callee : Chunk) :
    ctx.run (s.enter callee) =
      ctx.resume s.stack (s.frame :: s.callers)
        (ctx.activate (s.depth + 1) callee ⟨s.globals, s.console, s.executed⟩) := by
  let w : World := ⟨s.globals, s.console, s.executed⟩
  have hstate : s.enter callee =
      ({} : Local).state (w.logged (.pushFrame callee.id (s.depth + 1))) callee 0 s.stack
        (s.frame :: s.callers) := rfl
  rw [activate, hstate]
  exact run_proceed ctx (s.depth + 1) callee 0 {} _ s.stack (s.frame :: s.callers) rfl

end Context

namespace Machine

theorem execute_eq (m : Machine) (natives : Registry) (chunk : Chunk) :
    m.execute natives (some chunk) = m.interpret natives chunk := by
  let w : World := ⟨m.globals, m.console, 0⟩
  have hstart : m.start chunk =
      ({} : Local).state (w.logged (.pushFrame chunk.id 1)) chunk 0 [] [] := rfl
  have hrun : (m.context natives).run (m.start chunk) =
      (m.context natives).resume [] [] ((m.context natives).activate 1 chunk w) := by
    rw [Context.activate, hstart]
    exact Context.run_proceed (m.context natives) 1 chunk 0 {} _ [] [] rfl
  unfold execute interpret
  dsimp only
  rw [hrun]
  generalize (m.context natives).activate 1 chunk w = r
  match r with
  | (w, .ok v) => rfl
  | (w, .error a) =>
    simp only [Context.resume, Abort.under, List.map_nil, List.append_nil]
    rfl

/-- The machine refines the recursive interpreter, for any chunk and any table. A nested activation
is isolated: after it the caller continues with its own values and pending name, and one more value.
With solid values there is no crash. -/
theorem execute_eq_interpret (m : Machine) (natives : Registry) (chunk : Chunk) :
    m.execute natives (some chunk) = m.interpret natives chunk ∧
      (∀ (s : State) (callee : Chunk),
        (m.context natives).run (s.enter callee) =
          match (m.context natives).activate (s.depth + 1) callee
            ⟨s.globals, s.console, s.executed⟩ with
          | (w, .ok v) =>
            (m.context natives).run { s with
              globals := w.globals
              console := w.console
              executed := w.executed
              stack := v :: s.stack }
          | (w, .error a) => w.ended (.error (a.under s.sites s.stack))) ∧
      ((m.context natives).IsSolid → m.globals.isSolid → chunk.isSolid →
        (m.execute natives (some chunk)).2 ≠ .crash) := by
  refine ⟨execute_eq m natives chunk, ?_, ?_⟩
  · intro s callee
    rw [Context.run_enter]
    unfold Context.resume
    split <;> rfl
  · intro hctx hg hc
    exact (Context.run_isSolid hctx (start_isSolid hg hc)).outcome

/-- The callees use their own stacks and pending names while `cons` is pending in the caller. -/
theorem execute_eq_interpret_parked :
    let x := ascii "x"
    let seven := Value.number 7
    let outer : Chunk :=
      { code := [.push 1, .define x, .lookup (ascii "cons"), .push 1, .push 2, .call 2] }
    let inner : Chunk := { id := 1, code := [.immediate .null, .immediate seven] }
    let reader : Chunk := { id := 2, code := [.lookup x, .load] }
    let m : Machine :=
      { program := some ⟨[some outer, some inner, some reader], [0]⟩, maxFrames := 2
        console := { trace := some #[] } }
    let r := m.execute .standard (some outer)
    m.globals.isSolid ∧ outer.isSolid ∧ (m.context .standard).IsSolid ∧
      r = m.interpret .standard outer ∧ r.2 = .value (.pair seven seven) ∧
      r.1.globals.entries = [(x, seven)] ∧ r.1.stack = [] ∧ r.1.executed = 12 ∧
      r.1.console.trace.map (fun events => events.toList.map (·.depth)) =
        some [1, 2, 2, 1, 1, 1, 2, 2, 1, 2, 2, 1] := by
  intro x seven outer inner reader m r
  have hctx : (m.context .standard).IsSolid := by
    refine Context.isSolid_of_plain ?_ Registry.plain_standard
    intro p hp
    cases hp
    rfl
  obtain ⟨hrun, -, -⟩ := execute_eq_interpret m .standard outer
  exact ⟨rfl, rfl, hctx, hrun, by decide +kernel, by decide +kernel, by decide +kernel,
    by decide +kernel, by decide +kernel⟩

end Machine

end MiniScheme
