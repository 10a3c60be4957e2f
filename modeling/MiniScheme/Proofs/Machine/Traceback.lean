import Mathlib.Data.List.Chain
import MiniScheme.Proofs.Machine.Activation

/-! The stack of an error. Every caller is directly after the push that opened the frame above it,
so the sites of an error are a chain of calls, from the failing instruction down to the executed
chunk. -/
namespace MiniScheme

namespace Program

/-- Every chunk is present and numbered by its index. -/
def IsNumbered (p : Program) : Prop :=
  ∀ (i : Nat) (c : Option Chunk), p.chunks[i]? = some c → ∃ chunk, c = some chunk ∧ chunk.id = i

def Locates (p : Program) (s : Site) : Prop :=
  ∃ c, p.chunk? s.chunk = some (some c) ∧ 0 ≤ s.offset ∧ s.offset < c.code.length ∧
    s.line = lineAt c.lines s.offset

def Pushes (p : Program) (s : Site) (id : Int) : Prop :=
  ∃ c, p.chunk? s.chunk = some (some c) ∧ c.code[s.offset.toNat]? = some (.push id)

/-- The stack of the error starts at the site of the error and ends in the chunk `entry`, and each
site calls the chunk of the one above it. -/
structure Explains (p : Program) (entry : Int) (e : RunError) : Prop where
  top : e.stack.head? = some e.site
  bottom : e.stack.getLast?.map Site.chunk = some entry
  places : ∀ s ∈ e.stack, p.Locates s
  calls : e.stack.IsChain fun inner outer => p.Pushes outer inner.chunk

theorem IsNumbered.id_eq {p : Program} (h : p.IsNumbered) {id : Int} {c : Chunk}
    (hc : p.chunk? id = some (some c)) : c.id = id := by
  unfold chunk? at hc
  split at hc
  · cases hc
  · rename_i hid
    obtain ⟨_, hsome, hnumber⟩ := h id.toNat _ hc
    cases hsome
    rw [hnumber, Int.toNat_of_nonneg (Int.not_lt.1 hid)]

theorem IsNumbered.locates {p : Program} (h : p.IsNumbered) {id : Int} {c : Chunk} {i : Nat}
    (hc : p.chunk? id = some (some c)) (hi : i < c.code.length) : p.Locates (c.siteAt i) := by
  refine ⟨c, ?_, Int.natCast_nonneg i, Int.ofNat_lt.2 hi, rfl⟩
  change p.chunk? c.id = _
  rw [h.id_eq hc, hc]

theorem IsNumbered.pushes {p : Program} (h : p.IsNumbered) {id target : Int} {c : Chunk} {i : Nat}
    (hc : p.chunk? id = some (some c)) (hop : c.code[i]? = some (.push target)) :
    p.Pushes (c.siteAt i) target := by
  refine ⟨c, ?_, hop⟩
  change p.chunk? c.id = _
  rw [h.id_eq hc, hc]

end Program

theorem Frame.site_of_ip {f : Frame} {i : Nat} (h : f.ip = i + 1) : f.site = f.chunk.siteAt i := by
  simp [site, Chunk.siteAt, h]

theorem Frame.InCode.exists_ip {f : Frame} (h : f.InCode) {name : Bytes}
    (hp : f.pending = some name) : ∃ i, f.ip = i + 1 ∧ i < f.chunk.code.length := by
  obtain ⟨front, back, hbegun, -⟩ := (h.pending_iff name).1 hp
  have hle := h.ip_le
  cases hip : f.ip with
  | zero => simp [begun, hip] at hbegun
  | succ i => exact ⟨i, rfl, by omega⟩

namespace Context

/-- The frames below one that runs `chunk`. Each is directly after the push of the chunk above it,
and the lowest runs `entry`. -/
inductive Opened (ctx : Context) (entry : Chunk) : (chunk : Chunk) → List Frame → Prop where
  | bottom : Opened ctx entry entry []
  | caller {callee : Chunk} {f : Frame} {callers : List Frame} {i : Nat} {id : Int}
      (code : f.InCode) (ip : f.ip = i + 1) (op : f.chunk.code[i]? = some (.push id))
      (target : ctx.chunk? id = some (some callee)) (rest : Opened ctx entry f.chunk callers) :
      Opened ctx entry callee (f :: callers)

structure Nests (ctx : Context) (entry : Chunk) (s : State) : Prop where
  code : s.frame.InCode
  callers : ctx.Opened entry s.frame.chunk s.callers

/-- The step from `s` calls a native procedure that passes on the error of a nested run. -/
def Relays (ctx : Context) (s : State) (e : RunError) : Prop :=
  ∃ n m args, ctx.Calls s n m args ∧ (n.handler m args).2 = .failed e

variable {ctx : Context} {s t : State} {entry : Chunk}

theorem not_relays_of_aloof (hn : ∀ n ∈ ctx.natives.callable, n.Aloof) (s : State) (e : RunError) :
    ¬ctx.Relays s e := by
  rintro ⟨n, m, args, ⟨op, -, -, hinvokes⟩, hreply⟩
  exact (hn n hinvokes.mem).reply m args e hreply

/-- The step lemma of nesting. -/
theorem Moves.nests (h : ctx.Moves s t) (hs : ctx.Nests entry s) : ctx.Nests entry t := by
  obtain ⟨hcode, hopened⟩ := hs
  cases h with
  | perform hop hpush hframe hcallers =>
    constructor
    · rw [hframe]
      exact hcode.advance hop
    · rw [hframe, hcallers]
      exact hopened
  | enter hop hid hroom hframe hcallers =>
    have hcaller := hcode.advance hop
    constructor
    · rw [hframe]
      exact Frame.inCode_new _ _
    · rw [hframe, hcallers]
      exact .caller hcaller rfl hop hid hopened
  | leave hend hcallers =>
    rw [hcallers] at hopened
    cases hopened with
    | caller code ip op target rest => exact ⟨code, rest⟩

theorem Reaches.nests (h : ctx.Reaches s t) (hs : ctx.Nests entry s) : ctx.Nests entry t := by
  induction h with
  | refl => exact hs
  | next hstep _ ih => exact ih ((step_moves hstep).nests hs)

theorem finish_outcome (s : State) :
    s.finish.Leads (fun _ => True) fun h => ∃ v, h.outcome = .value v := by
  unfold State.finish
  dsimp only
  split
  · exact ⟨_, rfl⟩
  · trivial

/-- An error of the run is raised at `site`, above the frames `callers`. -/
def RaisedAt (site : Site) (callers : List Frame) (h : Halt) : Prop :=
  ∀ v e, h.outcome = .error v e →
    e.site = site ∧ e.stack = site :: callers.map Frame.site ∧ h.leftover = e.stack

theorem fail_raisedAt {i : Nat} (hip : s.frame.ip = i + 1) (cause : Cause) :
    (s.fail cause).Leads (fun _ => True) (RaisedAt (s.frame.chunk.siteAt i) s.callers) := by
  intro v e he
  cases he
  unfold State.sites
  rw [Frame.site_of_ip hip]
  exact ⟨rfl, rfl, rfl⟩

theorem apply_raisedAt {i : Nat} (hip : s.frame.ip = i + 1) (native : Native) (arity : Nat) :
    (ctx.apply s native arity).Leads (fun _ => True) fun h =>
      RaisedAt (s.frame.chunk.siteAt i) s.callers h ∨ ∃ e, h.outcome = .error .null e ∧
        (native.handler (ctx.machine s) (s.stack.take arity).reverse).2 = .failed e := by
  rw [apply_eq]
  dsimp only
  split
  · trivial
  · exact .inl (fail_raisedAt hip _)
  · rename_i e he
    exact .inr ⟨e, rfl, he⟩
  · exact .inl fun v e he => by cases he

theorem dispatch_raisedAt {op : Op} (hop : s.op? = some op)
    (hl : ¬(0 < ctx.limit ∧ ctx.limit < s.executed + 1)) :
    (ctx.dispatch (s.advance.traced op) op).Leads (fun _ => True) fun h =>
      RaisedAt (s.frame.chunk.siteAt s.frame.ip) s.callers h ∨
        ∃ e, h.outcome = .error .null e ∧ ctx.Relays s e := by
  have he := dispatch_effect ctx (s.advance.traced op) op
  generalize ctx.dispatch (s.advance.traced op) op = r at he ⊢
  cases he with
  | @apply name native arity hp hn ha hh =>
    refine (apply_raisedAt (s := (s.advance.traced _).setPending none) rfl native arity).mono
      (fun _ => id) ?_
    rintro h (hraised | ⟨e, herror, hreply⟩)
    · exact .inl hraised
    · have hinvokes : ctx.Invokes (s.advance.traced _) _ native _ _ :=
        invokes_of_arity hp hn ha hh
      exact .inr ⟨e, herror, native, _, _, ⟨_, hop, hl, hinvokes⟩, hreply⟩
  | enter | immediate | lookup | load | define => trivial
  | vacant | textless | negative => exact .inl fun v e he => by cases he
  | unknownChunk | overflow | lookupWhilePending | loadWithoutLookup | unbound | underflow
  | callWithoutLookup | notProcedure | unknownProcedure | arity | callUnderflow | invalid =>
    exact .inl (fail_raisedAt (i := s.frame.ip) rfl _)

/-- An error that ends a run is raised at an instruction of the current frame or passed on by a
native procedure. -/
theorem step_raisedAt (hs : s.frame.InCode) {h : Halt} {v : Value} {e : RunError}
    (hstep : ctx.step s = .halt h) (he : h.outcome = .error v e) :
    (∃ i, i < s.frame.chunk.code.length ∧ RaisedAt (s.frame.chunk.siteAt i) s.callers h) ∨
      ctx.Relays s e := by
  cases hop : s.op? with
  | none =>
    rw [step_of_end hop] at hstep
    cases hp : s.frame.pending with
    | some name =>
      replace hstep : s.fail (.unusedReference name) = .halt h := by rwa [hp] at hstep
      obtain ⟨i, hip, hi⟩ := hs.exists_ip hp
      have hraised := fail_raisedAt hip (.unusedReference name)
      rw [hstep] at hraised
      exact .inl ⟨i, hi, hraised⟩
    | none =>
      replace hstep : s.finish = .halt h := by rwa [hp] at hstep
      have hvalue := finish_outcome s
      rw [hstep] at hvalue
      obtain ⟨u, hu⟩ := hvalue
      cases hu.symm.trans he
  | some op =>
    obtain ⟨hi, -⟩ := List.getElem?_eq_some_iff.1 hop
    rw [step_of_op? hop] at hstep
    split at hstep
    · have hraised := fail_raisedAt (s := s.advance) (i := s.frame.ip) rfl .instructionLimit
      rw [hstep] at hraised
      exact .inl ⟨_, hi, hraised⟩
    · rename_i hl
      have hraised := dispatch_raisedAt hop hl
      rw [hstep] at hraised
      rcases hraised with hraised | ⟨e', he', hrelays⟩
      · exact .inl ⟨_, hi, hraised⟩
      · cases he.symm.trans he'
        exact .inr hrelays

theorem Opened.explains {p : Program} (hnum : p.IsNumbered) (hp : ctx.program = some p)
    {entry chunk : Chunk} {callers : List Frame} (h : ctx.Opened entry chunk callers) {id : Int}
    (hentry : p.chunk? id = some (some entry)) {i : Nat} (hi : i < chunk.code.length)
    (cause : Cause) :
    (∃ place, p.chunk? place = some (some chunk)) ∧
      p.Explains id ⟨cause, chunk.siteAt i, chunk.siteAt i :: callers.map Frame.site⟩ := by
  induction h generalizing i with
  | bottom =>
    refine ⟨⟨id, hentry⟩, rfl, ?_, ?_, List.isChain_singleton _⟩
    · exact congrArg some (hnum.id_eq hentry)
    · exact List.forall_mem_singleton.2 (hnum.locates hentry hi)
  | @caller callee f callers j target code ip op htarget rest ih =>
    rw [chunk?_eq hp] at htarget
    have hj : j < f.chunk.code.length := (List.getElem?_eq_some_iff.1 op).1
    obtain ⟨⟨place, hplace⟩, hbelow⟩ := ih hj
    have hsite : f.site = f.chunk.siteAt j := Frame.site_of_ip ip
    have hpush := hnum.pushes hplace op
    refine ⟨⟨target, htarget⟩, rfl, ?_, ?_, ?_⟩
    · rw [List.map_cons, hsite]
      exact hbelow.bottom
    · rw [List.map_cons, hsite]
      exact List.forall_mem_cons.2 ⟨hnum.locates htarget hi, hbelow.places⟩
    · rw [List.map_cons, hsite]
      refine List.isChain_cons_cons.2 ⟨?_, hbelow.calls⟩
      change p.Pushes _ callee.id
      rwa [hnum.id_eq htarget]

end Context

namespace Machine

theorem start_nests (m : Machine) (natives : Registry) (c : Chunk) :
    (m.context natives).Nests c (m.start c) :=
  ⟨Frame.inCode_new c 0, .bottom⟩

/-- The stack of an error that the run raises itself lists the frames of the last state. -/
theorem explains_of_execute {m : Machine} {natives : Registry} {p : Program} {id : Int} {c : Chunk}
    {v : Value} {e : RunError} (hm : m.program = some p) (hnum : p.IsNumbered)
    (hc : p.chunk? id = some (some c)) (he : (m.execute natives (some c)).2 = .error v e)
    (hown : ∀ s, (m.context natives).Reaches (m.start c) s → ¬(m.context natives).Relays s e) :
    p.Explains id e ∧ ∃ s, (m.context natives).Reaches (m.start c) s ∧
      (m.context natives).step s = .halt ((m.context natives).run (m.start c)) ∧
      e.stack.length = s.depth := by
  obtain ⟨s, hreaches, hlast⟩ := Context.exists_last (m.context natives) (m.start c)
  obtain ⟨hcode, hopened⟩ := hreaches.nests (start_nests m natives c)
  rcases Context.step_raisedAt hcode hlast he with ⟨i, hi, hraised⟩ | hrelays
  · obtain ⟨cause, site, stack⟩ := e
    obtain ⟨rfl, rfl, -⟩ := hraised v _ he
    obtain ⟨-, hexplains⟩ := hopened.explains hnum hm hc hi cause
    refine ⟨hexplains, s, hreaches, hlast, ?_⟩
    rw [List.length_cons, List.length_map]
    rfl
  · exact absurd hrelays (hown s hreaches)

end Machine

end MiniScheme
