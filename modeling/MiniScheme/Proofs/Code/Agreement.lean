import MiniScheme.Proofs.Code.Layout
import MiniScheme.Proofs.Expr.Evaluation
import MiniScheme.Proofs.Machine.Activation

/-! Compiler correctness: a compiled program agrees with the evaluator of its trees. -/
namespace MiniScheme

structure World.Shows (w : World) (st : Store) : Prop where
  globals : w.globals = st.globals
  out : w.console.out = st.out

namespace World.Shows

variable {w : World} {st : Store} (h : w.Shows st)

include h

theorem find? (name : Bytes) : w.globals.find? name = st.bindings.lookup name := by
  rw [h.globals, st.find?_globals]

theorem logged (event : LogEvent) : (w.logged event).Shows st :=
  ⟨h.globals, h.out⟩

theorem begun (depth : Nat) (chunk : Chunk) (ip : Nat) (op : Op) :
    (Context.begun depth chunk ip op w).Shows st :=
  ⟨h.globals, h.out⟩

theorem bind (name : Bytes) (v : Value) :
    Shows { w with globals := w.globals.bind name v }
      { st with bindings := (name, v) :: st.bindings } :=
  ⟨congrArg (Globals.bind name v) h.globals, h.out⟩

end World.Shows

def Ending.result : Ending → Except Failure Value
  | .ok v => .ok v
  | .error a => .error a.failure

/-- The activation ends as the evaluation does. -/
structure Matches (r : World × Ending) (q : Evaluated Value) : Prop where
  world : r.1.Shows q.1
  result : r.2.result = q.2

namespace Context

/-- What the agreement of code with trees requires of a context. -/
structure Serves (ctx : Context) (p : Program) : Prop where
  program : ctx.program = some p
  unlimited : ctx.limit = 0
  keepsSolid : ∀ n ∈ ctx.natives.callable, n.KeepsSolid
  unobservant : ∀ n ∈ ctx.natives.callable, n.Unobservant

variable {ctx : Context} {depth : Nat} {chunk : Chunk} {ip : Nat} {rest : List Op} {w : World}
  {st : Store}

theorem not_limited (h : ctx.limit = 0) (w : World) :
    ¬(0 < ctx.limit ∧ ctx.limit < w.counted.executed) := by
  omega

theorem proceed_unlimited (hlimit : ctx.limit = 0) {op : Op}
    (hcode : chunk.code.drop ip = op :: rest) (hpush : ∀ id, op ≠ .push id) (l : Local)
    (w : World) :
    ctx.proceed depth chunk ip l w =
      match ctx.perform l (begun depth chunk ip op w) op with
      | (w, .ok l) => ctx.proceed depth chunk (ip + 1) l w
      | (w, .error (failure, stack)) => (w, .error ⟨failure, [chunk.siteAt ip], stack⟩) :=
  proceed_perform l (getElem?_of_drop hcode).1 (not_limited hlimit w) hpush

theorem matches_end (hcode : chunk.code.drop ip = []) (stack : List Value) (hw : w.Shows st) :
    Matches (ctx.proceed depth chunk ip { stack } w) (st, .ok (stack.headD .null)) := by
  have hip : chunk.code.length ≤ ip := List.drop_eq_nil_iff.1 hcode
  rw [proceed, dif_neg (Nat.not_lt.2 hip)]
  exact ⟨hw.logged _, rfl⟩

theorem matches_immediate (hlimit : ctx.limit = 0) {v : Value}
    (hcode : chunk.code.drop ip = [.immediate v]) (hw : w.Shows st) :
    Matches (ctx.proceed depth chunk ip {} w) (st, .ok v) := by
  rw [proceed_unlimited hlimit hcode (by intro id h; cases h)]
  exact matches_end (getElem?_of_drop hcode).2 [v] (hw.begun ..)

theorem matches_load (hlimit : ctx.limit = 0) {name : Bytes}
    (hcode : chunk.code.drop ip = [.lookup name, .load]) (hw : w.Shows st) :
    Matches (ctx.proceed depth chunk ip {} w)
      (match st.bindings.lookup name with
      | some v => (st, .ok v)
      | none => (st, .error (.refused (.unbound name)))) := by
  have hload := (getElem?_of_drop hcode).2
  have hend := (getElem?_of_drop hload).2
  have hbegun := (hw.begun depth chunk ip (.lookup name)).begun depth chunk (ip + 1) .load
  rw [proceed_unlimited hlimit hcode (by intro id h; cases h)]
  dsimp only [perform]
  rw [proceed_unlimited hlimit hload (by intro id h; cases h)]
  dsimp only [perform]
  rw [hbegun.find?]
  cases st.bindings.lookup name with
  | none => exact ⟨hbegun, rfl⟩
  | some v => exact matches_end hend [v] hbegun

theorem matches_define (hlimit : ctx.limit = 0) {name : Bytes} {v : Value} (hv : v.isSolid)
    (hcode : chunk.code.drop ip = [.define name]) (hw : w.Shows st) :
    Matches (ctx.proceed depth chunk ip { stack := [v] } w)
      ({ st with bindings := (name, v) :: st.bindings }, .ok .null) := by
  obtain ⟨text, htext⟩ := Option.isSome_iff_exists.1 ((Value.write?_isSome_iff v).2 hv)
  rw [proceed_unlimited hlimit hcode (by intro id h; cases h)]
  dsimp only [perform]
  rw [htext]
  exact matches_end (getElem?_of_drop hcode).2 [] (((hw.begun ..).bind name v).logged _)

/-- A push continues with the value of the tree whose code it runs. -/
theorem matches_push {p : Program} (hs : ctx.Serves p) {id : Nat} {callee : Chunk} {e : Expr}
    (hcode : chunk.code.drop ip = .push id :: rest) (hid : p.chunk? id = some (some callee))
    (he : e.isSolid) {l : Local} (hw : w.Shows st) (hst : st.globals.isSolid)
    {k : Value → Store → Evaluated Value}
    (hcallee : ∀ {w st}, w.Shows st → st.globals.isSolid → depth + 1 ≤ ctx.maxFrames →
      Matches (ctx.activate (depth + 1) callee w) (e.evaluate ctx (depth + 1) st))
    (hk : ∀ {v w st}, v.isSolid → w.Shows st → st.globals.isSolid →
      Matches (ctx.proceed depth chunk (ip + 1) { l with stack := v :: l.stack } w) (k v st)) :
    Matches (ctx.proceed depth chunk ip l w) ((e.evaluate ctx (depth + 1) st).andThen k) := by
  have hbegun := hw.begun depth chunk ip (.push id)
  rw [← chunk?_eq hs.program] at hid
  rw [proceed_push l (getElem?_of_drop hcode).1 (not_limited hs.unlimited w), hid]
  dsimp only
  by_cases hroom : ctx.maxFrames ≤ depth
  · rw [if_pos hroom, Expr.evaluate.eq_def, if_pos (Nat.lt_succ_of_le hroom)]
    exact ⟨hbegun, rfl⟩
  · rw [if_neg hroom]
    have hbody := hcallee hbegun hst (Nat.lt_of_not_le hroom)
    have hkeeps : (e.evaluate ctx (depth + 1) st).Keeps fun v => v.isSolid :=
      Expr.evaluate_keeps hs.keepsSolid e (depth + 1) he hst
    generalize ctx.activate (depth + 1) callee (begun depth chunk ip (.push id) w) = r at hbody ⊢
    generalize e.evaluate ctx (depth + 1) st = q at hbody hkeeps ⊢
    obtain ⟨w', ending⟩ := r
    obtain ⟨st', result⟩ := q
    obtain ⟨hworld, rfl⟩ := hbody
    cases ending with
    | ok v => exact hk (hkeeps.2 v rfl) hworld hkeeps.1
    | error a => exact ⟨hworld, rfl⟩

/-- The reply of a native procedure does not depend on trace and log. -/
theorem answer_shows (ctx : Context) {native : Native} (hu : native.Unobservant) (args : List Value)
    (hw : w.Shows st) :
    (ctx.answer native args w).1.Shows (ctx.respond native args st).1 ∧
      (ctx.answer native args w).2 = (ctx.respond native args st).2 := by
  let m : Machine :=
    { ctx.toSettings with
      globals := st.globals, program := ctx.program, console := { out := st.out } }
  obtain ⟨hreply, hout⟩ := hu m w.console.trace w.console.log args
  have hhost : ctx.host w =
      { m with console := { m.console with trace := w.console.trace, log := w.console.log } } := by
    unfold host
    rw [hw.globals, show w.console = ⟨st.out, w.console.trace, w.console.log⟩ by rw [← hw.out]]
  unfold answer respond
  dsimp only
  rw [hhost, hreply]
  exact ⟨⟨hw.globals, hout⟩, rfl⟩

/-- The arguments are on the stack in reverse. -/
theorem invoke_shows (hu : ∀ n ∈ ctx.natives.callable, n.Unobservant) (name : Bytes)
    (vs : List Value) (hw : w.Shows st) :
    let r := ctx.invoke name vs.length vs.reverse w
    let q := ctx.applyNamed name vs st
    r.1.Shows q.1 ∧ r.2.mapError Prod.fst = q.2.map fun v => { stack := [v] } := by
  unfold invoke applyNamed
  cases hn : ctx.natives.callable? name with
  | none =>
    dsimp only
    rw [hw.find?]
    split
    · exact ⟨hw, rfl⟩
    · exact ⟨hw, rfl⟩
  | some native =>
    dsimp only
    by_cases ha : (vs.length : Int) = native.arity
    · have htake : vs.reverse.take vs.length = vs.reverse :=
        List.take_of_length_le (Nat.le_of_eq List.length_reverse)
      have hdrop : vs.reverse.drop vs.length = [] :=
        List.drop_eq_nil_of_le (Nat.le_of_eq List.length_reverse)
      rw [if_neg (not_not_intro ha), List.length_reverse, if_neg (Int.lt_irrefl _),
        if_neg (by omega), if_pos ha, Int.toNat_natCast, htake, hdrop, List.reverse_reverse]
      have hnative : native.Unobservant := hu native (Registry.mem_of_callable? hn)
      obtain ⟨hworld, hresult⟩ := ctx.answer_shows hnative vs hw
      rw [← hresult]
      generalize ctx.answer native vs w = r at hworld ⊢
      match r with
      | (w, .ok v) => exact ⟨hworld, rfl⟩
      | (w, .error failure) => exact ⟨hworld, rfl⟩
    · rw [if_pos ha, if_neg ha]
      exact ⟨hw, rfl⟩

theorem matches_call {p : Program} (hs : ctx.Serves p) {name : Bytes} {vs : List Value}
    (hcode : chunk.code.drop ip = [.lookup name, .call vs.length]) (hw : w.Shows st) :
    Matches (ctx.proceed depth chunk ip { stack := vs.reverse } w) (ctx.applyNamed name vs st) := by
  have hcall := (getElem?_of_drop hcode).2
  have hend := (getElem?_of_drop hcall).2
  have hbegun :=
    (hw.begun depth chunk ip (.lookup name)).begun depth chunk (ip + 1) (.call vs.length)
  rw [proceed_unlimited hs.unlimited hcode (by intro id h; cases h)]
  dsimp only [perform]
  rw [proceed_unlimited hs.unlimited hcall (by intro id h; cases h)]
  dsimp only [perform]
  obtain ⟨hworld, hresult⟩ := invoke_shows hs.unobservant name vs hbegun
  generalize ctx.invoke name vs.length vs.reverse _ = r at hworld hresult ⊢
  generalize ctx.applyNamed name vs st = q at hworld hresult ⊢
  obtain ⟨w', result⟩ := r
  obtain ⟨st', answer⟩ := q
  cases result with
  | ok l =>
    cases answer with
    | ok v =>
      cases hresult
      exact matches_end hend [v] hworld
    | error => cases hresult
  | error e =>
    cases answer with
    | ok => cases hresult
    | error failure =>
      cases hresult
      exact ⟨hworld, rfl⟩

mutual

/-- An activation of the code of a tree matches the evaluation of the tree. -/
theorem matches_activate {p : Program} (hs : ctx.Serves p) {id : Nat} {e : Expr} (h : p.Holds id e)
    (he : e.isSolid) {c : Chunk} (hc : p.chunk? id = some (some c)) {depth : Nat}
    (hd : depth ≤ ctx.maxFrames) {w : World} {st : Store} (hw : w.Shows st)
    (hst : st.globals.isSolid) :
    Matches (ctx.activate depth c w) (e.evaluate ctx depth st) := by
  rw [activate, Expr.evaluate.eq_def, if_neg (Nat.not_lt.2 hd)]
  replace hw := hw.logged (.pushFrame c.id depth)
  generalize w.logged (.pushFrame c.id depth) = w at hw ⊢
  cases h with
  | empty h => exact matches_end (h.drop_zero hc) [] hw
  | static h => exact matches_immediate hs.unlimited (h.drop_zero hc) hw
  | reference h => exact matches_load hs.unlimited (h.drop_zero hc) hw
  | define h hbody =>
    have hcode := h.drop_zero hc
    obtain ⟨callee, hcallee⟩ := hbody.chunk?
    dsimp only [Expr.isSolid] at he ⊢
    refine matches_push hs hcode hcallee he hw hst ?_ ?_
    · intro w st hw hst hd
      exact matches_activate hs hbody he hcallee hd hw hst
    · intro v w st hv hw hst
      exact matches_define hs.unlimited hv (getElem?_of_drop hcode).2 hw
  | call h hargs =>
    dsimp only [Expr.isSolid] at he ⊢
    refine matches_args hs hargs he (h.drop_zero hc) hw hst ?_
    intro vs w st hlength hcode hw
    rw [← hlength] at hcode
    rw [List.append_nil]
    exact matches_call hs hcode hw

/-- Here `k` is the code after the pushes, which takes the values of all arguments. -/
theorem matches_args {p : Program} (hs : ctx.Serves p) {ids : List Nat} {args : List Expr}
    (h : p.HoldsAll ids args) (hargs : Expr.areSolid args) {depth : Nat} {chunk : Chunk} {ip : Nat}
    {rest : List Op}
    (hcode : chunk.code.drop ip = ids.map (fun (i : Nat) => Op.push i) ++ rest)
    {stack : List Value} {w : World} {st : Store} (hw : w.Shows st) (hst : st.globals.isSolid)
    {k : List Value → Store → Evaluated Value}
    (hk : ∀ vs {w st}, vs.length = args.length → chunk.code.drop (ip + vs.length) = rest →
      w.Shows st →
      Matches (ctx.proceed depth chunk (ip + vs.length) { stack := vs.reverse ++ stack } w)
        (k vs st)) :
    Matches (ctx.proceed depth chunk ip { stack } w)
      ((Expr.evaluateArgs ctx (depth + 1) args st).andThen k) := by
  rw [Expr.evaluateArgs.eq_def]
  cases h with
  | nil => exact hk [] rfl hcode hw
  | @cons id ids arg args harg hrest =>
    obtain ⟨hsolid, hothers⟩ := Bool.and_eq_true_iff.1 hargs
    obtain ⟨callee, hcallee⟩ := harg.chunk?
    dsimp only
    rw [Evaluated.andThen_assoc]
    refine matches_push hs hcode hcallee hsolid hw hst ?_ ?_
    · intro w st hw hst hd
      exact matches_activate hs harg hsolid hcallee hd hw hst
    · intro v w st hv hw hst
      rw [Evaluated.andThen_assoc]
      refine matches_args hs hrest hothers (getElem?_of_drop hcode).2 hw hst ?_
      intro vs w st hlength hend hw
      have hip : ip + 1 + vs.length = ip + (v :: vs).length := by
        rw [List.length_cons]
        omega
      have hstack : vs.reverse ++ v :: stack = (v :: vs).reverse ++ stack := by
        rw [List.reverse_cons, List.append_assoc]
        rfl
      rw [hip] at hend ⊢
      rw [hstack]
      exact hk (v :: vs) (by rw [List.length_cons, hlength, List.length_cons]) hend hw

end

end Context

/-- A run ends as an evaluation does: with the same value, or with the same cause. -/
def Outcome.Agrees : Outcome → Except Failure Value → Prop
  | .value v, .ok u => v = u
  | .error v e, .error (.refused cause) => v = .null ∧ e.cause = cause
  | .error v e, .error (.failed inner) => v = .null ∧ e = inner
  | .crash, .error .crashed => True
  | _, _ => False

namespace Machine

theorem runEntries_matches {natives : Registry} {p : Program} {ids : List Nat}
    {forms : List Expr} (h : p.HoldsAll ids forms) (hforms : Expr.areSolid forms) (m : Machine)
    (last : Value) (hs : (m.context natives).Serves p) (hd : 1 ≤ m.maxFrames) {st : Store}
    (hglobals : m.globals = st.globals) (hout : m.console.out = st.out)
    (hst : st.globals.isSolid) :
    let r := m.runEntries natives p last (ids.map fun (i : Nat) => (i : Int))
    let q := Expr.evaluateForms (m.context natives) last forms st
    r.1.globals = q.1.globals ∧ r.1.console.out = q.1.out ∧ r.2.Agrees q.2 := by
  induction forms generalizing ids m last st with
  | nil =>
    cases h
    exact ⟨hglobals, hout, rfl⟩
  | cons form forms ih =>
    cases h with
    | @cons id ids _ _ hform hrest =>
      obtain ⟨hsolid, hothers⟩ := Bool.and_eq_true_iff.1 hforms
      obtain ⟨c, hc⟩ := hform.chunk?
      let w : World := ⟨m.globals, m.console, 0⟩
      have hmatches : Matches ((m.context natives).activate 1 c w)
          (form.evaluate (m.context natives) 1 st) :=
        Context.matches_activate hs hform hsolid hc hd ⟨hglobals, hout⟩ hst
      have hkeeps : (form.evaluate (m.context natives) 1 st).Keeps fun v => v.isSolid :=
        Expr.evaluate_keeps hs.keepsSolid form 1 hsolid hst
      have hexecute := execute_eq m natives c
      unfold interpret at hexecute
      simp only [List.map_cons, runEntries, Expr.evaluateForms, hc]
      rw [hexecute]
      dsimp only
      generalize (m.context natives).activate 1 c w = r at hmatches ⊢
      generalize form.evaluate (m.context natives) 1 st = q at hmatches hkeeps ⊢
      obtain ⟨w', ending⟩ := r
      obtain ⟨st', result⟩ := q
      obtain ⟨hworld, rfl⟩ := hmatches
      cases ending with
      | ok v =>
        exact ih hrest hothers (m.halted (w'.ended (.ok v))) v hs hd hworld.globals hworld.out
          hkeeps.1
      | error abort =>
        obtain ⟨failure, sites, stack⟩ := abort
        cases failure with
        | refused cause => exact ⟨hworld.globals, hworld.out, rfl, rfl⟩
        | failed e => exact ⟨hworld.globals, hworld.out, rfl, rfl⟩
        | crashed => exact ⟨hworld.globals, hworld.out, trivial⟩

/-- A compiled program leaves the bindings and the output of the tree evaluator, and ends as it
does. -/
theorem run_compile {m : Machine} {natives : Registry} {forms : List Expr} {p : Program}
    (hp : compile forms = .ok p) (hframes : 1 ≤ m.maxFrames) (hlimit : m.limit = 0)
    (hg : m.globals.isSolid) (hforms : Expr.areSolid forms)
    (hk : ∀ n ∈ natives.callable, n.KeepsSolid) (hu : ∀ n ∈ natives.callable, n.Unobservant) :
    let r := m.run natives (some p)
    let q := Expr.evaluateForms ((m.load (some p)).context natives) .null forms
      ⟨m.globals.entries, m.console.out⟩
    (∀ name, r.1.globals.find? name = q.1.bindings.lookup name) ∧
      r.1.console.out = q.1.out ∧ r.2.Agrees q.2 := by
  obtain ⟨ids, hentries, hholds⟩ := holdsAll_of_compile hp
  have hserves : ((m.load (some p)).context natives).Serves p := ⟨rfl, hlimit, hk, hu⟩
  let st : Store := ⟨m.globals.entries, m.console.out⟩
  have hglobals : m.globals = st.globals :=
    Globals.ext_find? fun name => (st.find?_globals name).symm
  rw [hglobals] at hg
  obtain ⟨hfinal, hout, hagrees⟩ := runEntries_matches hholds hforms (m.load (some p)) .null hserves
    hframes hglobals rfl hg
  rw [← hentries] at hfinal hout hagrees
  refine ⟨?_, hout, hagrees⟩
  intro name
  exact (congrArg (Globals.find? · name) hfinal).trans (Store.find?_globals _ name)

/-- `x` is defined, overwritten, read and written out; `y` is defined inside an argument. -/
theorem run_compile_overwritten :
    let x := ascii "x"
    let y := ascii "y"
    let seven := Value.number 7
    let forms : List Expr :=
      [.define x (.static (.number 1) {}) {},
        .define x (.call (ascii "+") [.reference x {}, .static (.number 6) {}] {}) {},
        .call (ascii "display") [.reference x {}] {},
        .call (ascii "cons") [.define y (.reference x {}) {}, .reference y {}] {}]
    let m : Machine := { maxFrames := 3 }
    ∃ p, compile forms = .ok p ∧ Expr.areSolid forms ∧
      let r := m.run .standard (some p)
      let q := Expr.evaluateForms ((m.load (some p)).context .standard) .null forms
        ⟨m.globals.entries, m.console.out⟩
      ((∀ name, r.1.globals.find? name = q.1.bindings.lookup name) ∧
        r.1.console.out = q.1.out ∧ r.2.Agrees q.2) ∧
      r.2 = .value (.pair .null seven) ∧ r.1.globals.entries = [(x, seven), (y, seven)] ∧
      r.1.console.out = #[ascii "7"] ∧
      q.1.bindings = [(y, seven), (x, seven), (x, .number 1)] := by
  intro x y seven forms m
  refine ⟨_, rfl, rfl, ?_, by decide +kernel, by decide +kernel, by decide +kernel,
    by decide +kernel⟩
  refine @run_compile m .standard forms _ rfl (by decide) rfl rfl rfl ?_
    Registry.unobservant_standard
  intro n hn
  exact (Registry.plain_standard n hn).keepsSolid

end Machine

end MiniScheme
