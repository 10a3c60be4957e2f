import MiniScheme.Machine.Run

/-! Steps and runs as relations: the possible effects of an instruction, reachable states, and
invariants. -/
namespace MiniScheme

/-- The postcondition of a step: `P` of the next state, `Q` of the end. -/
def Step.Leads (P : State → Prop) (Q : Halt → Prop) : Step → Prop
  | .next s => P s
  | .halt h => Q h

theorem Step.Leads.and {P P' : State → Prop} {Q Q' : Halt → Prop} {r : Step} (h : r.Leads P Q)
    (h' : r.Leads P' Q') : r.Leads (fun s => P s ∧ P' s) fun h => Q h ∧ Q' h := by
  cases r with
  | next s => exact ⟨h, h'⟩
  | halt e => exact ⟨h, h'⟩

theorem Step.Leads.mono {P P' : State → Prop} {Q Q' : Halt → Prop} {r : Step} (h : r.Leads P Q)
    (hP : ∀ s, P s → P' s) (hQ : ∀ e, Q e → Q' e) : r.Leads P' Q' := by
  cases r with
  | next s => exact hP s h
  | halt e => exact hQ e h

def State.op? (s : State) : Option Op :=
  s.frame.chunk.code[s.frame.ip]?

namespace Context

/-- `Effect ctx s op r`: the instruction `op`, carried out in `s`, makes the step `r`. -/
inductive Effect (ctx : Context) (s : State) : Op → Step → Prop where
  | unknownChunk {id : Int} (hid : ctx.chunk? id = none) :
      Effect ctx s (.push id) (s.fail (.unknownChunk id))
  | overflow {id : Int} {target : Option Chunk} (hid : ctx.chunk? id = some target)
      (hroom : ctx.maxFrames ≤ s.depth) :
      Effect ctx s (.push id) (s.fail (.frameOverflow ctx.maxFrames))
  | vacant {id : Int} (hid : ctx.chunk? id = some none) (hroom : s.depth < ctx.maxFrames) :
      Effect ctx s (.push id) (s.crash true)
  | enter {id : Int} {chunk : Chunk} (hid : ctx.chunk? id = some (some chunk))
      (hroom : s.depth < ctx.maxFrames) : Effect ctx s (.push id) (.next (s.enter chunk))
  | immediate (v : Value) : Effect ctx s (.immediate v) (.next (s.push v))
  | lookup {name : Bytes} (hp : s.frame.pending = none) :
      Effect ctx s (.lookup name) (.next (s.setPending (some name)))
  | lookupWhilePending {name pending : Bytes} (hp : s.frame.pending = some pending) :
      Effect ctx s (.lookup name) (s.fail (.lookupWhilePending name pending))
  | load {name : Bytes} {v : Value} (hp : s.frame.pending = some name)
      (hv : s.globals.find? name = some v) :
      Effect ctx s .load (.next ((s.setPending none).push v))
  | loadWithoutLookup (hp : s.frame.pending = none) :
      Effect ctx s .load (s.fail .loadWithoutLookup)
  | unbound {name : Bytes} (hp : s.frame.pending = some name) (hv : s.globals.find? name = none) :
      Effect ctx s .load ((s.setPending none).fail (.unbound name))
  | define {name text : Bytes} {v : Value} {rest : List Value} (hs : s.stack = v :: rest)
      (hh : 0 < s.height) (ht : v.write? = some text) :
      Effect ctx s (.define name) (.next
        (({ s with stack := rest, globals := s.globals.bind name v } : State).logged
          (.defineGlobal name text)))
  | underflow {name : Bytes} (hh : s.height = 0) :
      Effect ctx s (.define name) (s.fail .stackUnderflow)
  | textless {name : Bytes} {v : Value} {rest : List Value} (hs : s.stack = v :: rest)
      (ht : v.write? = none) :
      Effect ctx s (.define name)
        (({ s with stack := rest, globals := s.globals.bind name v } : State).crash false)
  | callWithoutLookup {arity : Int} (hp : s.frame.pending = none) :
      Effect ctx s (.call arity) (s.fail .callWithoutLookup)
  | notProcedure {name : Bytes} {arity : Int} (hp : s.frame.pending = some name)
      (hn : ctx.natives.callable? name = none) (hv : (s.globals.find? name).isSome) :
      Effect ctx s (.call arity) ((s.setPending none).fail (.notProcedure name))
  | unknownProcedure {name : Bytes} {arity : Int} (hp : s.frame.pending = some name)
      (hn : ctx.natives.callable? name = none) (hv : s.globals.find? name = none) :
      Effect ctx s (.call arity) ((s.setPending none).fail (.unknownProcedure name))
  | arity {name : Bytes} {arity : Int} {native : Native} (hp : s.frame.pending = some name)
      (hn : ctx.natives.callable? name = some native) (ha : arity ≠ native.arity) :
      Effect ctx s (.call arity) ((s.setPending none).fail (.arity name native.arity arity))
  | callUnderflow {name : Bytes} {native : Native} (hp : s.frame.pending = some name)
      (hn : ctx.natives.callable? name = some native) (hh : s.height < native.arity) :
      Effect ctx s (.call native.arity)
        ((s.setPending none).fail (.callUnderflow name native.arity s.height))
  | negative {name : Bytes} {native : Native} (hp : s.frame.pending = some name)
      (hn : ctx.natives.callable? name = some native) (ha : native.arity < 0) :
      Effect ctx s (.call native.arity) ((s.setPending none).crash false)
  | apply {name : Bytes} {native : Native} {arity : Nat} (hp : s.frame.pending = some name)
      (hn : ctx.natives.callable? name = some native) (ha : native.arity = arity)
      (hh : arity ≤ s.height) :
      Effect ctx s (.call arity) (ctx.apply (s.setPending none) native arity)
  | invalid {code : UInt8} : Effect ctx s (.invalid code) (s.fail (.invalidOpcode code))

theorem dispatch_effect (ctx : Context) (s : State) (op : Op) :
    ctx.Effect s op (ctx.dispatch s op) := by
  cases op with
  | push id =>
    simp only [dispatch, Context.enter]
    split
    · rename_i hid; exact .unknownChunk hid
    · rename_i target hid
      split
      · rename_i hroom; exact .overflow hid hroom
      · rename_i hroom
        split
        · exact .vacant hid (Nat.lt_of_not_le hroom)
        · exact .enter hid (Nat.lt_of_not_le hroom)
  | immediate v => exact .immediate v
  | lookup name =>
    simp only [dispatch]
    split
    · rename_i hp; exact .lookupWhilePending hp
    · rename_i hp; exact .lookup hp
  | load =>
    simp only [dispatch]
    split
    · rename_i hp; exact .loadWithoutLookup hp
    · rename_i hp
      split
      · rename_i hv; exact .unbound hp hv
      · rename_i hv; exact .load hp hv
  | define name =>
    simp only [dispatch, State.bindTop]
    split
    · rename_i hs; exact .underflow (by simp [State.height, hs])
    · rename_i hs
      split
      · rename_i hh; exact .underflow hh
      · rename_i hh
        split
        · rename_i ht; exact .textless hs ht
        · rename_i ht; exact .define hs (Nat.pos_of_ne_zero hh) ht
  | call arity =>
    simp only [dispatch]
    split
    · rename_i hp; exact .callWithoutLookup hp
    · rename_i name hp
      simp only [Context.call]
      split
      · rename_i hn
        split
        · rename_i hv; exact .notProcedure hp hn hv
        · rename_i hv; exact .unknownProcedure hp hn (Option.not_isSome_iff_eq_none.1 hv)
      · rename_i native hn
        split
        · rename_i ha; exact .arity hp hn ha
        · rename_i ha
          rw [Decidable.of_not_not ha]
          split
          · rename_i hh; exact .callUnderflow hp hn hh
          · rename_i hh
            split
            · rename_i hneg; exact .negative hp hn hneg
            · rename_i hneg
              obtain ⟨k, hk⟩ := Int.eq_ofNat_of_zero_le (Int.not_lt.1 hneg)
              rw [hk] at hh ⊢
              exact .apply hp hn hk (Int.ofNat_le.1 (Int.not_lt.1 hh))
  | invalid code => exact .invalid

theorem chunk?_eq {ctx : Context} {p : Program} (h : ctx.program = some p) (id : Int) :
    ctx.chunk? id = p.chunk? id := by
  unfold chunk?
  rw [h]
  rfl

theorem apply_eq (ctx : Context) (s : State) (native : Native) (arity : Nat) :
    ctx.apply s native arity =
      let r := native.handler (ctx.machine s) (s.stack.take arity).reverse
      let t := { s with stack := s.stack.drop arity, console := r.1 }
      match r.2 with
      | .value v => .next (t.push v)
      | .refused cause => t.fail cause
      | .failed e => t.pass e
      | .crashed => t.crash false := rfl

variable {ctx : Context} {s t u : State}

theorem step_of_end (h : s.op? = none) :
    ctx.step s =
      match s.frame.pending with
      | some name => s.fail (.unusedReference name)
      | none => s.finish := by
  unfold State.op? at h
  cases hp : s.frame.pending with
  | none => simp only [step, h, hp]
  | some name => simp only [step, h, hp]

theorem step_of_op? {op : Op} (h : s.op? = some op) :
    ctx.step s =
      if 0 < ctx.limit ∧ ctx.limit < s.executed + 1 then s.advance.fail .instructionLimit
      else ctx.dispatch (s.advance.traced op) op := by
  unfold State.op? at h
  unfold step
  rw [h]
  rfl

/-- `Invokes ctx s op n m args`: the instruction `op`, carried out in `s`, applies the native
procedure `n` to `args` on the machine `m`. -/
structure Invokes (ctx : Context) (s : State) (op : Op) (n : Native) (m : Machine)
    (args : List Value) : Prop where
  op : op = .call n.arity
  native : s.frame.pending.bind ctx.natives.callable? = some n
  nonneg : 0 ≤ n.arity
  height : n.arity ≤ s.height
  machine : m = ctx.machine s
  args : args = (s.stack.take n.arity.toNat).reverse

theorem invokes_of_arity {name : Bytes} {n : Native} {arity : Nat}
    (hp : s.frame.pending = some name) (hn : ctx.natives.callable? name = some n)
    (ha : n.arity = arity) (hh : arity ≤ s.height) :
    ctx.Invokes s (.call arity) n (ctx.machine s) (s.stack.take arity).reverse where
  op := by rw [ha]
  native := by rw [hp, Option.bind_some, hn]
  nonneg := by omega
  height := by omega
  machine := rfl
  args := by rw [ha, Int.toNat_natCast]

/-- The step from `s` applies the native procedure `n` to `args` on the machine `m`. -/
def Calls (ctx : Context) (s : State) (n : Native) (m : Machine) (args : List Value) : Prop :=
  ∃ op, s.op? = some op ∧ ¬(0 < ctx.limit ∧ ctx.limit < s.executed + 1) ∧
    ctx.Invokes (s.advance.traced op) op n m args

theorem run_of_next (h : ctx.step s = .next t) : ctx.run s = ctx.run t := by
  rw [run]
  split
  · rename_i hs; rw [h] at hs; cases hs
  · rename_i hs; rw [h] at hs; cases hs; rfl

theorem run_of_halt {e : Halt} (h : ctx.step s = .halt e) : ctx.run s = e := by
  rw [run]
  split
  · rename_i hs; rw [h] at hs; cases hs; rfl
  · rename_i hs; rw [h] at hs; cases hs

/-- `Reaches ctx s t`: a run from `s` passes `t`. -/
inductive Reaches (ctx : Context) : State → State → Prop where
  | refl (s : State) : Reaches ctx s s
  | next {s t u : State} (hs : ctx.step s = .next t) (hr : Reaches ctx t u) : Reaches ctx s u

theorem Reaches.invariant {P : State → Prop} {Q : State → Halt → Prop}
    (hstep : ∀ s, P s → (ctx.step s).Leads P (Q s)) (hr : ctx.Reaches s t) (hs : P s) : P t := by
  induction hr with
  | refl => exact hs
  | next hn _ ih =>
    have h := hstep _ hs
    rw [hn] at h
    exact ih h

theorem exists_last (ctx : Context) (s : State) :
    ∃ t, ctx.Reaches s t ∧ ctx.step t = .halt (ctx.run s) := by
  fun_induction run ctx s with
  | case1 s e he => exact ⟨s, .refl s, he⟩
  | case2 s t ht ih =>
    obtain ⟨u, hu, hlast⟩ := ih
    exact ⟨u, .next ht hu, hlast⟩

/-- An invariant of all steps holds up to the last step, whose postcondition holds of the end. -/
theorem run_invariant {P : State → Prop} {Q : State → Halt → Prop}
    (hstep : ∀ s, P s → (ctx.step s).Leads P (Q s)) (hs : P s) :
    ∃ t, ctx.Reaches s t ∧ Q t (ctx.run s) := by
  obtain ⟨t, ht, hlast⟩ := exists_last ctx s
  have h := hstep t (ht.invariant hstep hs)
  rw [hlast] at h
  exact ⟨t, ht, h⟩

end Context

namespace Machine

theorem context_execute (m : Machine) (natives : Registry) (c : Option Chunk) :
    (m.execute natives c).1.context natives = m.context natives := by
  cases c with
  | none => rfl
  | some c => rfl

theorem context_runEntries (m : Machine) (natives : Registry) (p : Program) (last : Value)
    (ids : List Int) : (m.runEntries natives p last ids).1.context natives = m.context natives := by
  induction ids generalizing m last with
  | nil => rfl
  | cons id ids ih =>
    simp only [runEntries]
    cases p.chunk? id with
    | none => rfl
    | some c =>
      have hexecute := context_execute m natives c
      dsimp only
      generalize m.execute natives c = r at hexecute ⊢
      obtain ⟨next, outcome⟩ := r
      cases outcome with
      | value v => exact (ih next v).trans hexecute
      | error v e => exact hexecute
      | crash => exact hexecute

end Machine

end MiniScheme
