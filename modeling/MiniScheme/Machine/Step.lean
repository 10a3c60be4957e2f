import MiniScheme.Machine.Native

/-! The machine at work. All frames share one stack of values; a frame owns the part of it above
its base. -/
namespace MiniScheme

/-- A chunk in execution: `ip` is the next instruction, `base` the height of the stack when the
frame was opened, and `pending` the name that a lookup has parked. -/
structure Frame where
  chunk : Chunk
  ip : Nat := 0
  base : Nat
  pending : Option Bytes := none
deriving DecidableEq, Repr

/-- The instruction begun last. -/
def Frame.site (f : Frame) : Site :=
  let offset := (f.ip : Int) - 1
  ⟨f.chunk.id, lineAt f.chunk.lines offset, offset⟩

/-- What stays the same during a run. -/
structure Context extends Settings where
  natives : Registry
  program : Option Program

/-- The stack has its top first; `callers` are the frames below the current one, innermost first. -/
structure State where
  globals : Globals
  console : Console
  stack : List Value
  frame : Frame
  callers : List Frame
  executed : Nat

/-- How a run ends. The value beside an error is that of the form before the failing one where the
failing one does not exist, and null elsewhere. -/
inductive Outcome where
  | value (v : Value)
  | error (v : Value) (e : RunError)
  | crash
deriving DecidableEq, Repr

/-- What a run that has ended leaves in the machine. -/
structure Halt where
  globals : Globals
  console : Console
  stack : List Value
  leftover : List Site
  executed : Nat
  outcome : Outcome

inductive Step where
  | next (s : State)
  | halt (h : Halt)

namespace State

def depth (s : State) : Nat :=
  s.callers.length + 1

/-- The sites of the open frames, innermost first. -/
def sites (s : State) : List Site :=
  s.frame.site :: s.callers.map Frame.site

/-- Stops with an error at the current instruction. -/
def fail (s : State) (cause : Cause) : Step :=
  .halt ⟨s.globals, s.console, s.stack, s.sites, s.executed,
    .error .null ⟨cause, s.frame.site, s.sites⟩⟩

/-- Stops with the error of a run inside a native procedure. -/
def pass (s : State) (e : RunError) : Step :=
  .halt ⟨s.globals, s.console, s.stack, s.sites, s.executed, .error .null e⟩

/-- Stops without an answer, a frame of no chunk being opened last if `vacant`. -/
def crash (s : State) (vacant : Bool) : Step :=
  .halt ⟨s.globals, s.console, s.stack, (if vacant then [Site.none] else []) ++ s.sites,
    s.executed, .crash⟩

def push (s : State) (v : Value) : State :=
  { s with stack := v :: s.stack }

/-- How many values the current frame has on the stack. -/
def height (s : State) : Nat :=
  s.stack.length - s.frame.base

def setPending (s : State) (name : Option Bytes) : State :=
  { s with frame := { s.frame with pending := name } }

def logged (s : State) (event : LogEvent) : State :=
  { s with console := s.console.logged event }

/-- Counts the instruction at `ip` as begun. -/
def advance (s : State) : State :=
  { s with frame := { s.frame with ip := s.frame.ip + 1 }, executed := s.executed + 1 }

def traced (s : State) (op : Op) : State :=
  { s with console := s.console.traced ⟨s.frame.site, s.depth, op⟩ }

/-- Opens a frame for a chunk above the current one. -/
def enter (s : State) (chunk : Chunk) : State :=
  let s := { s with
    frame := { chunk, base := s.stack.length }
    callers := s.frame :: s.callers }
  s.logged (.pushFrame chunk.id s.depth)

/-- Closes the current frame. Its result is the top of its part of the stack; the rest of that
part is dropped. -/
def finish (s : State) : Step :=
  let result := if 0 < s.height then s.stack.headD .null else .null
  let s := s.logged (.popFrame s.frame.chunk.id s.depth (s.height - 1))
  let below := s.stack.drop s.height
  match s.callers with
  | [] => .halt ⟨s.globals, s.console, below, [], s.executed, .value result⟩
  | caller :: callers => .next { s with stack := result :: below, frame := caller, callers }

/-- Binds the top of the stack. The binding is made before it is logged, and a value without a text
cannot be logged. -/
def bindTop (s : State) (name : Bytes) : Step :=
  match s.stack with
  | [] => s.fail .stackUnderflow
  | v :: rest =>
    if s.height = 0 then s.fail .stackUnderflow
    else
      let s := { s with stack := rest, globals := s.globals.bind name v }
      match v.write? with
      | none => s.crash false
      | some text => .next (s.logged (.defineGlobal name text))

end State

namespace Context

def chunk? (ctx : Context) (id : Int) : Option (Option Chunk) :=
  ctx.program.bind (·.chunk? id)

/-- The machine as a native procedure sees it: the run in progress is hidden. -/
def machine (ctx : Context) (s : State) : Machine :=
  { ctx.toSettings with globals := s.globals, program := ctx.program, console := s.console }

def enter (ctx : Context) (s : State) (id : Int) : Step :=
  match ctx.chunk? id with
  | none => s.fail (.unknownChunk id)
  | some target =>
    if ctx.maxFrames ≤ s.depth then s.fail (.frameOverflow ctx.maxFrames)
    else
      match target with
      | none => s.crash true
      | some chunk => .next (s.enter chunk)

/-- Applies a native procedure to the topmost `arity` values. -/
def apply (ctx : Context) (s : State) (native : Native) (arity : Nat) : Step :=
  let args := (s.stack.take arity).reverse
  let s := { s with stack := s.stack.drop arity }
  let (console, reply) := native.handler (ctx.machine s) args
  let s := { s with console }
  match reply with
  | .value v => .next (s.push v)
  | .refused cause => s.fail cause
  | .failed e => s.pass e
  | .crashed => s.crash false

/-- There is no list of arguments for an arity below zero. -/
def call (ctx : Context) (s : State) (name : Bytes) (arity : Int) : Step :=
  match ctx.natives.callable? name with
  | none =>
    if (s.globals.find? name).isSome then s.fail (.notProcedure name)
    else s.fail (.unknownProcedure name)
  | some native =>
    if arity ≠ native.arity then s.fail (.arity name native.arity arity)
    else if s.height < arity then s.fail (.callUnderflow name arity s.height)
    else if arity < 0 then s.crash false
    else ctx.apply s native arity.toNat

/-- Carries out one instruction. -/
def dispatch (ctx : Context) (s : State) : Op → Step
  | .push id => ctx.enter s id
  | .immediate v => .next (s.push v)
  | .lookup name =>
    match s.frame.pending with
    | some pending => s.fail (.lookupWhilePending name pending)
    | none => .next (s.setPending (some name))
  | .load =>
    match s.frame.pending with
    | none => s.fail .loadWithoutLookup
    | some name =>
      match s.globals.find? name with
      | none => (s.setPending none).fail (.unbound name)
      | some v => .next ((s.setPending none).push v)
  | .define name => s.bindTop name
  | .call arity =>
    match s.frame.pending with
    | none => s.fail .callWithoutLookup
    | some name => ctx.call (s.setPending none) name arity
  | .invalid code => s.fail (.invalidOpcode code)

/-- One step: the next instruction, or the end of the current frame. The limit is checked after
the instruction is counted and before it is traced. -/
def step (ctx : Context) (s : State) : Step :=
  match s.frame.chunk.code[s.frame.ip]? with
  | none =>
    match s.frame.pending with
    | some name => s.fail (.unusedReference name)
    | none => s.finish
  | some op =>
    let s := s.advance
    if 0 < ctx.limit ∧ ctx.limit < s.executed then s.fail .instructionLimit
    else ctx.dispatch (s.traced op) op

end Context

end MiniScheme
