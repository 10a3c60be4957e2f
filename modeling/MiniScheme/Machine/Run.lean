import MiniScheme.Machine.Step

/-! Runs. Every run ends, with or without an instruction limit: code has no jumps, and frames nest
only so deep. -/
namespace MiniScheme

/-- The length of the longest code in a table. -/
def longestCode : List (Option Chunk) → Nat
  | [] => 0
  | none :: rest => longestCode rest
  | some c :: rest => max c.code.length (longestCode rest)

theorem length_le_longestCode {chunks : List (Option Chunk)} {c : Chunk} (h : some c ∈ chunks) :
    c.code.length ≤ longestCode chunks := by
  induction chunks with
  | nil => cases h
  | cons d rest ih =>
    rcases List.mem_cons.1 h with rfl | hr
    · exact Nat.le_max_left _ _
    · cases d with
      | none => exact ih hr
      | some d => exact Nat.le_trans (ih hr) (Nat.le_max_right _ _)

namespace Context

def longest (ctx : Context) : Nat :=
  ctx.program.elim 0 fun p => longestCode p.chunks

theorem length_le_longest {ctx : Context} {id : Int} {c : Chunk}
    (h : ctx.chunk? id = some (some c)) : c.code.length ≤ ctx.longest := by
  unfold chunk? at h
  unfold longest
  cases hp : ctx.program with
  | none => simp [hp] at h
  | some p =>
    simp only [hp, Option.bind_some, Program.chunk?] at h
    split at h
    · cases h
    · exact length_le_longestCode (List.mem_of_getElem? h)

/-- A bound on the steps that one instruction can cause where `room` more frames can be opened and
no code is longer than `bound`. -/
def weight (bound : Nat) : (room : Nat) → Nat
  | 0 => 1
  | room + 1 => 2 + bound * weight bound room

theorem weight_pos (bound room : Nat) : 0 < weight bound room := by
  cases room with
  | zero => exact Nat.one_pos
  | succ room => simp only [weight]; omega

/-- A bound on the steps of a frame that has `left` instructions left and `below` frames beneath. -/
def frameWork (ctx : Context) (below left : Nat) : Nat :=
  1 + left * weight ctx.longest (ctx.maxFrames - (below + 1))

def framesWork (ctx : Context) : List Frame → Nat
  | [] => 0
  | f :: callers =>
    ctx.frameWork callers.length (f.chunk.code.length - f.ip) + ctx.framesWork callers

/-- A bound on the steps that are left. -/
def work (ctx : Context) (s : State) : Nat :=
  ctx.framesWork (s.frame :: s.callers)

/-- One instruction less is less work. -/
theorem frameWork_lt {ctx : Context} {below left : Nat} :
    ctx.frameWork below left < ctx.frameWork below (left + 1) := by
  have := weight_pos ctx.longest (ctx.maxFrames - (below + 1))
  simp only [frameWork, Nat.succ_mul]
  omega

/-- One instruction less outweighs a frame opened on top. -/
theorem frameWork_enter {ctx : Context} {below left size : Nat} (hsize : size ≤ ctx.longest)
    (hroom : below + 1 < ctx.maxFrames) :
    ctx.frameWork (below + 1) size + ctx.frameWork below left < ctx.frameWork below (left + 1) := by
  obtain ⟨room, hr⟩ : ∃ room, ctx.maxFrames - (below + 1) = room + 1 :=
    ⟨ctx.maxFrames - (below + 1) - 1, by omega⟩
  have hr' : ctx.maxFrames - (below + 1 + 1) = room := by omega
  have := Nat.mul_le_mul_right (weight ctx.longest room) hsize
  simp only [frameWork, hr, hr', Nat.succ_mul, weight]
  omega

/-- An instruction leaves the frames as they are, or opens one more where there is room. -/
theorem work_dispatch {ctx : Context} {s t : State} {op : Op} (h : ctx.dispatch s op = .next t) :
    ctx.work t = ctx.work s ∨
      ∃ size, size ≤ ctx.longest ∧ s.depth < ctx.maxFrames ∧
        ctx.work t = ctx.frameWork s.depth size + ctx.work s := by
  cases op with
  | push id =>
    simp only [dispatch, enter] at h
    split at h
    · cases h
    · rename_i target hc
      split at h
      · cases h
      · rename_i hroom
        split at h
        · cases h
        · cases h
          exact .inr ⟨_, length_le_longest hc, Nat.lt_of_not_le hroom, rfl⟩
  | immediate v => cases h; exact .inl rfl
  | lookup name =>
    simp only [dispatch] at h
    split at h
    · cases h
    · cases h; exact .inl rfl
  | load =>
    simp only [dispatch] at h
    split at h
    · cases h
    · split at h
      · cases h
      · cases h; exact .inl rfl
  | define name =>
    simp only [dispatch, State.bindTop] at h
    split at h
    · cases h
    · split at h
      · cases h
      · split at h
        · cases h
        · cases h; exact .inl rfl
  | call arity =>
    simp only [dispatch] at h
    split at h
    · cases h
    · simp only [call] at h
      split at h
      · split at h <;> cases h
      · split at h
        · cases h
        · split at h
          · cases h
          · split at h
            · cases h
            · simp only [apply] at h
              split at h
              · cases h; exact .inl rfl
              · cases h
              · cases h
              · cases h
  | invalid code => cases h

/-- Every step that does not end the run leaves less work. -/
theorem work_step {ctx : Context} {s t : State} (h : ctx.step s = .next t) :
    ctx.work t < ctx.work s := by
  simp only [step] at h
  split at h
  · split at h
    · cases h
    · simp only [State.finish] at h
      split at h
      · cases h
      · rename_i caller callers hs
        cases h
        replace hs : s.callers = caller :: callers := hs
        simp only [work, framesWork, frameWork, hs]
        omega
  · rename_i op hop
    have hip : s.frame.ip < s.frame.chunk.code.length := by
      obtain ⟨hlt, -⟩ := List.getElem?_eq_some_iff.1 hop
      exact hlt
    have hleft : s.frame.chunk.code.length - s.frame.ip =
        s.frame.chunk.code.length - (s.frame.ip + 1) + 1 := by omega
    have hadv : ctx.work (s.advance.traced op) =
        ctx.frameWork s.callers.length (s.frame.chunk.code.length - (s.frame.ip + 1)) +
          ctx.framesWork s.callers := rfl
    have hwork : ctx.work s =
        ctx.frameWork s.callers.length (s.frame.chunk.code.length - (s.frame.ip + 1) + 1) +
          ctx.framesWork s.callers := by simp only [work, framesWork, hleft]
    split at h
    · cases h
    · rcases work_dispatch h with ht | ⟨size, hsize, hroom, ht⟩
      · rw [ht, hadv, hwork]
        exact Nat.add_lt_add_right frameWork_lt _
      · rw [ht, hadv, hwork, ← Nat.add_assoc]
        exact Nat.add_lt_add_right (frameWork_enter hsize hroom) _

/-- Runs until the end. -/
def run (ctx : Context) (s : State) : Halt :=
  match _h : ctx.step s with
  | .halt h => h
  | .next t => run ctx t
termination_by ctx.work s
decreasing_by exact work_step _h

end Context

namespace Machine

def context (m : Machine) (natives : Registry) : Context :=
  ⟨m.toSettings, natives, m.program⟩

/-- A run that is about to start with a chunk, on a machine that has been reset. -/
def start (m : Machine) (chunk : Chunk) : State :=
  let m := m.reset
  { globals := m.globals
    console := m.console.logged (.pushFrame chunk.id 1)
    stack := m.stack
    frame := { chunk, base := m.stack.length }
    callers := []
    executed := m.executed }

/-- The machine as a run leaves it. -/
def halted (m : Machine) (h : Halt) : Machine :=
  { m with
    globals := h.globals
    console := h.console
    stack := h.stack
    leftover := h.leftover
    executed := h.executed }

/-- Runs one chunk against the globals. -/
def execute (m : Machine) (natives : Registry) : Option Chunk → Machine × Outcome
  | none => (m.reset, .error .null ⟨.noChunk, .none, m.reset.leftover⟩)
  | some chunk =>
    let h := (m.context natives).run (m.start chunk)
    (m.halted h, h.outcome)

/-- Runs entries of a program in order up to the first that fails; `last` is the value so far. -/
def runEntries (m : Machine) (natives : Registry) (p : Program) (last : Value) :
    List Int → Machine × Outcome
  | [] => (m, .value last)
  | id :: ids =>
    match p.chunk? id with
    | none => (m, .error last ⟨.unknownEntry id, .none, m.leftover⟩)
    | some chunk =>
      match m.execute natives chunk with
      | (m, .value v) => m.runEntries natives p v ids
      | ended => ended

/-- Loads a program and runs its entries; the value is that of the last one. -/
def run (m : Machine) (natives : Registry) (program : Option Program) : Machine × Outcome :=
  match program with
  | none => (m.load none, .value .null)
  | some p => (m.load program).runEntries natives p .null p.entries

/-- The listing of the loaded program. -/
def listing? (m : Machine) (natives : Registry) : Option Listing :=
  match m.program with
  | none => some { error := some .nothingLoaded }
  | some p => Listing.ofProgram? natives.signatures (some p)

end Machine

end MiniScheme
