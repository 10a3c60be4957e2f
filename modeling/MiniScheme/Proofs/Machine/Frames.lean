import MiniScheme.Proofs.Machine.Run

/-! The layout of frames on the stack. The executed instructions of a frame determine how many
values it holds and which name is pending, independently of its callers. -/
namespace MiniScheme

namespace Op

def growth : Op → Int
  | push _ | immediate _ | load => 1
  | lookup _ | invalid _ => 0
  | define _ => -1
  | call arity => 1 - arity

def handlesName : Op → Bool
  | lookup _ | load | call _ => true
  | push _ | immediate _ | define _ | invalid _ => false

def parked (pending : Option Bytes) : Op → Option Bytes
  | lookup name => some name
  | load | call _ => none
  | push _ | immediate _ | define _ | invalid _ => pending

end Op

def staticHeight (ops : List Op) : Int :=
  ops.foldl (fun height op => height + op.growth) 0

/-- `Parks ops name`: the last lookup in `ops` is of `name`, and no load or call follows it. -/
def Parks (ops : List Op) (name : Bytes) : Prop :=
  ∃ front back, ops = front ++ .lookup name :: back ∧ ∀ op ∈ back, op.handlesName = false

theorem staticHeight_concat (ops : List Op) (op : Op) :
    staticHeight (ops ++ [op]) = staticHeight ops + op.growth :=
  List.foldl_append

theorem parks_concat_iff {ops : List Op} {op : Op} {name : Bytes} :
    Parks (ops ++ [op]) name ↔ op = .lookup name ∨ (op.handlesName = false ∧ Parks ops name) := by
  constructor
  · rintro ⟨front, back, heq, hback⟩
    rcases List.eq_nil_or_concat back with rfl | ⟨back, last, rfl⟩
    · obtain ⟨-, hlast⟩ := List.append_inj' heq rfl
      exact .inl (List.singleton_inj.1 hlast)
    · rw [List.concat_eq_append] at heq hback
      rw [← List.cons_append, ← List.append_assoc] at heq
      obtain ⟨hops, hlast⟩ := List.append_inj' heq rfl
      cases hlast
      obtain ⟨hback, hidle⟩ := List.forall_mem_append.1 hback
      exact .inr ⟨hidle op List.mem_cons_self, front, back, hops, hback⟩
  · rintro (rfl | ⟨hidle, front, back, rfl, hback⟩)
    · exact ⟨ops, [], rfl, List.forall_mem_nil _⟩
    · refine ⟨front, back ++ [op], by simp, ?_⟩
      exact List.forall_mem_append.2 ⟨hback, List.forall_mem_singleton.2 hidle⟩

theorem parked_eq_some_iff {ops : List Op} {pending : Option Bytes} (op : Op)
    (h : ∀ name, pending = some name ↔ Parks ops name) (name : Bytes) :
    op.parked pending = some name ↔ Parks (ops ++ [op]) name := by
  rw [parks_concat_iff]
  cases op with
  | lookup other | load | call arity => simp [Op.parked, Op.handlesName]
  | push id | immediate v | define other | invalid code => simp [Op.parked, Op.handlesName, h]

namespace Context

variable {ctx : Context} {s t : State}

/-- The possible effects of a step on the frames and the stack height. -/
inductive Moves (ctx : Context) (s t : State) : Prop where
  | perform {op : Op} (hop : s.op? = some op) (hpush : ∀ id, op ≠ .push id)
      (hframe : t.frame =
        { s.frame with ip := s.frame.ip + 1, pending := op.parked s.frame.pending })
      (hcallers : t.callers = s.callers)
      (hstack : (t.stack.length : Int) = s.stack.length + op.growth)
      (hbase : s.frame.base ≤ s.stack.length → s.frame.base ≤ t.stack.length)
      (hcount : t.executed = s.executed + 1)
  | enter {id : Int} {callee : Chunk} (hop : s.op? = some (.push id))
      (hid : ctx.chunk? id = some (some callee)) (hroom : s.depth < ctx.maxFrames)
      (hframe : t.frame = { chunk := callee, base := s.stack.length })
      (hcallers : t.callers = { s.frame with ip := s.frame.ip + 1 } :: s.callers)
      (hstack : t.stack = s.stack) (hcount : t.executed = s.executed + 1)
  | leave (hend : s.op? = none) (hcallers : s.callers = t.frame :: t.callers)
      (hstack : t.stack.length = s.stack.length - s.height + 1)
      (hcount : t.executed = s.executed)

/-- A successful call replaces its arguments by one value. -/
theorem next_of_apply {native : Native} {arity : Nat} (h : ctx.apply s native arity = .next t) :
    t.frame = s.frame ∧ t.callers = s.callers ∧ t.executed = s.executed ∧
      t.stack.length = s.stack.length - arity + 1 := by
  rw [apply_eq] at h
  dsimp only at h
  split at h
  · cases h
    refine ⟨rfl, rfl, rfl, ?_⟩
    change (s.stack.drop arity).length + 1 = _
    rw [List.length_drop]
  · cases h
  · cases h
  · cases h

theorem dispatch_moves {op : Op} (hop : s.op? = some op)
    (h : ctx.dispatch (s.advance.traced op) op = .next t) : ctx.Moves s t := by
  have he := dispatch_effect ctx (s.advance.traced op) op
  generalize ctx.dispatch (s.advance.traced op) op = r at he h
  cases he with
  | enter hid hroom =>
    cases h
    exact .enter hop hid hroom rfl rfl rfl rfl
  | immediate v =>
    cases h
    refine .perform hop (fun _ => Op.noConfusion) rfl rfl ?_ ?_ rfl
    · exact Int.natCast_succ _
    · exact Nat.le_succ_of_le
  | lookup hp =>
    cases h
    exact .perform hop (fun _ => Op.noConfusion) rfl rfl (Int.add_zero _).symm id rfl
  | load hp hv =>
    cases h
    refine .perform hop (fun _ => Op.noConfusion) rfl rfl ?_ ?_ rfl
    · exact Int.natCast_succ _
    · exact Nat.le_succ_of_le
  | @define name text v rest hstack hh ht =>
    cases h
    replace hstack : s.stack = v :: rest := hstack
    replace hh : 0 < s.stack.length - s.frame.base := hh
    refine .perform hop (fun _ => Op.noConfusion) rfl rfl ?_ ?_ rfl
    · change (rest.length : Int) = s.stack.length + -1
      rw [hstack, List.length_cons]
      omega
    · intro hbase
      change s.frame.base ≤ rest.length
      rw [hstack, List.length_cons] at hh
      omega
  | @apply name native arity hp hn ha hh =>
    obtain ⟨hframe, hcallers, hcount, hstack⟩ := next_of_apply h
    replace hh : arity ≤ s.stack.length - s.frame.base := hh
    replace hstack : t.stack.length = s.stack.length - arity + 1 := hstack
    refine .perform hop (fun _ => Op.noConfusion) hframe hcallers ?_ ?_ hcount
    · change (t.stack.length : Int) = s.stack.length + (1 - arity)
      omega
    · omega
  | unknownChunk | overflow | vacant | lookupWhilePending | loadWithoutLookup | unbound
  | underflow | textless | callWithoutLookup | notProcedure | unknownProcedure | arity
  | callUnderflow | negative | invalid => cases h

theorem finish_moves (hend : s.op? = none) (h : s.finish = .next t) : ctx.Moves s t := by
  unfold State.finish at h
  dsimp only at h
  split at h
  · cases h
  · rename_i caller callers hcallers
    cases h
    refine .leave hend hcallers ?_ rfl
    change (s.stack.drop s.height).length + 1 = _
    rw [List.length_drop]

theorem step_moves (h : ctx.step s = .next t) : ctx.Moves s t := by
  cases hop : s.op? with
  | none =>
    rw [step_of_end hop] at h
    split at h
    · cases h
    · exact finish_moves hop h
  | some op =>
    rw [step_of_op? hop] at h
    split at h
    · cases h
    · exact dispatch_moves hop h

end Context

def Frame.begun (f : Frame) : List Op :=
  f.chunk.code.take f.ip

/-- The frame is within its code, and its pending name is the one that its code has parked. -/
structure Frame.InCode (f : Frame) : Prop where
  ip_le : f.ip ≤ f.chunk.code.length
  pending_iff : ∀ name, f.pending = some name ↔ Parks f.begun name

/-- The frames below one with base `top`. Each is directly after a push and holds the values that
the code before the push leaves; the lowest one has base zero. -/
inductive Waiting : (top : Nat) → List Frame → Prop where
  | bottom : Waiting 0 []
  | caller {top : Nat} {f : Frame} {callers : List Frame} {done : List Op} {id : Int}
      (code : f.InCode) (begun : f.begun = done ++ [.push id]) (base_le : f.base ≤ top)
      (height : (top : Int) - f.base = staticHeight done) (rest : Waiting f.base callers) :
      Waiting top (f :: callers)

/-- The layout invariant: the number of frames is bounded, and each holds what its executed code
leaves. -/
structure State.LaidOut (s : State) (maxFrames : Nat) : Prop where
  depth_pos : 1 ≤ s.depth
  depth_le : s.depth ≤ maxFrames
  code : s.frame.InCode
  base_le : s.frame.base ≤ s.stack.length
  height : (s.stack.length : Int) - s.frame.base = staticHeight s.frame.begun
  callers : Waiting s.frame.base s.callers

theorem Frame.begun_advance {f : Frame} {op : Op} {pending : Option Bytes}
    (hop : f.chunk.code[f.ip]? = some op) :
    ({ f with ip := f.ip + 1, pending } : Frame).begun = f.begun ++ [op] := by
  unfold begun
  rw [List.take_add_one, hop]
  rfl

theorem Frame.InCode.advance {f : Frame} {op : Op} (h : f.InCode)
    (hop : f.chunk.code[f.ip]? = some op) :
    ({ f with ip := f.ip + 1, pending := op.parked f.pending } : Frame).InCode where
  ip_le := by
    obtain ⟨hlt, -⟩ := List.getElem?_eq_some_iff.1 hop
    exact hlt
  pending_iff := by
    rw [Frame.begun_advance hop]
    exact parked_eq_some_iff op h.pending_iff

theorem Frame.inCode_new (chunk : Chunk) (base : Nat) : ({ chunk, base } : Frame).InCode where
  ip_le := Nat.zero_le _
  pending_iff := by simp [begun, Parks]

namespace Context

variable {ctx : Context} {s t : State}

/-- The step lemma of the layout invariant. -/
theorem Moves.laidOut (h : ctx.Moves s t) (hs : s.LaidOut ctx.maxFrames) :
    t.LaidOut ctx.maxFrames := by
  obtain ⟨hpos, hdepth, hcode, hbase, hheight, hwait⟩ := hs
  cases h with
  | @perform op hop hpush hframe hcallers hstack hbase' hcount =>
    have hbegun : t.frame.begun = s.frame.begun ++ [op] := by
      rw [hframe]
      exact Frame.begun_advance hop
    have htbase : t.frame.base = s.frame.base := by rw [hframe]
    refine ⟨?_, ?_, ?_, ?_, ?_, ?_⟩
    · exact Nat.le_add_left _ _
    · unfold State.depth at hdepth ⊢
      rwa [hcallers]
    · rw [hframe]
      exact hcode.advance hop
    · rw [htbase]
      exact hbase' hbase
    · rw [hbegun, staticHeight_concat, htbase]
      omega
    · rw [htbase, hcallers]
      exact hwait
  | @enter id callee hop hid hroom hframe hcallers hstack hcount =>
    have hcaller := hcode.advance hop
    have htop : t.frame.base = t.stack.length := by rw [hframe, hstack]
    refine ⟨?_, ?_, ?_, ?_, ?_, ?_⟩
    · exact Nat.le_add_left _ _
    · unfold State.depth at hroom ⊢
      rw [hcallers, List.length_cons]
      exact hroom
    · rw [hframe]
      exact Frame.inCode_new callee _
    · exact Nat.le_of_eq htop
    · rw [htop, hframe]
      exact Int.sub_self _
    · rw [hframe, hcallers]
      exact .caller hcaller (Frame.begun_advance hop) hbase hheight hwait
  | leave hend hcallers hstack hcount =>
    have hlength : t.stack.length = s.frame.base + 1 := by
      unfold State.height at hstack
      omega
    rw [hcallers] at hwait
    generalize s.frame.base = top at hwait hlength
    cases hwait with
    | @caller _ _ _ done id hcaller hbegun hle hdone hrest =>
      refine ⟨?_, ?_, hcaller, ?_, ?_, hrest⟩
      · exact Nat.le_add_left _ _
      · unfold State.depth at hdepth ⊢
        rw [hcallers, List.length_cons] at hdepth
        omega
      · omega
      · rw [hbegun, staticHeight_concat]
        change (t.stack.length : Int) - t.frame.base = staticHeight done + 1
        omega

theorem Reaches.laidOut (h : ctx.Reaches s t) (hs : s.LaidOut ctx.maxFrames) :
    t.LaidOut ctx.maxFrames := by
  induction h with
  | refl => exact hs
  | next hstep _ ih => exact ih ((step_moves hstep).laidOut hs)

end Context

namespace Machine

theorem start_laidOut {m : Machine} (hm : 1 ≤ m.maxFrames) (c : Chunk) :
    (m.start c).LaidOut m.maxFrames where
  depth_pos := Nat.le_refl 1
  depth_le := hm
  code := Frame.inCode_new c 0
  base_le := Nat.le_refl 0
  height := rfl
  callers := .bottom

/-- Every reachable state satisfies the layout invariant. -/
theorem laidOut_of_reaches {m : Machine} {natives : Registry} {c : Chunk} {s : State}
    (hm : 1 ≤ m.maxFrames) (hs : (m.context natives).Reaches (m.start c) s) :
    s.LaidOut m.maxFrames :=
  hs.laidOut (start_laidOut hm c)

/-- A caller waits for an argument with a pending name and a value on the stack. -/
theorem laidOut_of_reaches_parked_caller :
    let callee : Chunk := { id := 1, code := [.immediate .eof, .immediate .null] }
    let c : Chunk := { code := [.immediate .null, .lookup (ascii "car"), .push 1, .call 1] }
    let m : Machine := { program := some ⟨[some c, some callee], [0]⟩, maxFrames := 2 }
    1 ≤ m.maxFrames ∧ ∃ s, (m.context {}).Reaches (m.start c) s ∧ s.callers.length = 1 ∧
      s.stack = [.eof, .null] ∧ s.LaidOut m.maxFrames := by
  intro callee c m
  have hm : 1 ≤ m.maxFrames := by decide
  have hs : (m.context {}).Reaches (m.start c) _ :=
    .next rfl (.next rfl (.next rfl (.next rfl (.refl _))))
  exact ⟨hm, _, hs, rfl, rfl, laidOut_of_reaches hm hs⟩

end Machine

end MiniScheme
