import MiniScheme.Proofs.Interpreter.History

/-! Sources in pieces. Evaluating lines one by one or at once makes no difference, except for the
sites of errors. -/
namespace MiniScheme

def Outcome.evaluated : Outcome → EvalOutcome
  | value v => .value v
  | error v e => .error v (.run e)
  | crash => .crash

theorem Outcome.evaluated_eq_value_iff {o : Outcome} {v : Value} :
    o.evaluated = .value v ↔ o = .value v := by
  cases o <;> simp [evaluated]

/-- The outcome of relocated code. Only errors of runs have sites. -/
def EvalOutcome.relocate (places lines : Nat) : EvalOutcome → EvalOutcome
  | error v (.run e) => error v (.run (e.relocate places lines))
  | outcome => outcome

theorem Outcome.evaluated_relocate (places lines : Nat) (o : Outcome) :
    (o.relocate places lines).evaluated = o.evaluated.relocate places lines := by
  cases o <;> rfl

namespace Interpreter

variable {it : Interpreter} {natives : Registry} {source : Bytes} {forms : List Expr} {p : Program}

theorem runProgram_eq (it : Interpreter) (natives : Registry) (p : Program) :
    it.runProgram natives p =
      let r := it.machine.run natives (some p)
      ({ it with machine := r.1 }, r.2.evaluated) := by
  unfold runProgram
  generalize it.machine.run natives (some p) = r
  obtain ⟨machine, outcome⟩ := r
  cases outcome <;> rfl

theorem note_of_dump (h : it.dump = none) (text : Unit → Bytes) : it.note text = it := by
  obtain ⟨machine, dump⟩ := it
  cases h
  rfl

theorem eval_of_parse (hdump : it.dump = none) (h : parse source = .ok forms)
    (hp : compile forms = .ok p) :
    it.eval natives source =
      let r := it.machine.run natives (some p)
      ({ it with machine := r.1 }, r.2.evaluated) := by
  obtain ⟨⟨tokens, fault⟩, htokens⟩ : ∃ r, tokenize source = r := ⟨_, rfl⟩
  have hlisted : it.runListed natives p = it.runProgram natives p := by
    unfold runListed
    rw [hdump]
    rfl
  have hread : it.evalForms natives (parse source) = it.runProgram natives p := by
    simp only [h, evalForms, note_of_dump hdump, hp, hlisted]
  rw [eval_of_tokenize htokens, note_of_dump hdump, hread, ← runProgram_eq]
  cases fault with
  | none => rfl
  | some e =>
    rw [hdump]
    rfl

/-- Evaluating two sources that parse, in sequence or at once, gives the same bindings and output.
The value is that of the second source if it has a form, and an error of the second source is
reported at its sites and lines in the whole. -/
theorem eval_append_line (ha : ∀ n ∈ natives.callable, n.Aloof)
    (hu : ∀ n ∈ natives.callable, n.Unobservant) (hdump : it.dump = none) {a b : Bytes}
    {es fs : List Expr} (hes : parse a = .ok es) (hfs : parse b = .ok fs) :
    ∃ p, compile es = .ok p ∧
      let r := it.eval natives a
      let s := r.1.eval natives b
      let t := it.eval natives (a ++ 0x0A :: b)
      (∀ v, r.2 = .value v → s.1.Resembles t.1 ∧
        t.2 = if fs = [] then .value v
          else s.2.relocate p.chunks.length (a.count 0x0A + 1)) ∧
      ((∀ v, r.2 ≠ .value v) → r.1.Resembles t.1 ∧ t.2 = r.2) := by
  have hes' := areProper_of_parse hes
  have hfs' := areProper_of_parse hfs
  obtain ⟨p, hp⟩ := compile_of_areProper hes'
  obtain ⟨q, hq⟩ := compile_of_areProper hfs'
  refine ⟨p, hp, ?_⟩
  have hboth : parse (a ++ 0x0A :: b) =
      .ok (es ++ Expr.relocateAll (Position.shift (a.length + 1) (a.count 0x0A + 1)) fs) := by
    rw [parse_append_line_eq hes, hfs]
    rfl
  have happend : compile _ = .ok (p.append q (a.count 0x0A + 1)) := compile_append
    (fun pos => (rfl : (pos.shift (a.length + 1) (a.count 0x0A + 1)).line = _)) hp hq
  obtain ⟨hvalue, herror⟩ := Machine.run_append ha hu hp hq (Expr.areSolid_of_areProper es hes')
    (Expr.areSolid_of_areProper fs hfs') it.machine (a.count 0x0A + 1)
  let first := (it.machine.run natives (some p)).1
  have hr := @eval_of_parse it natives a es p hdump hes hp
  have hs := @eval_of_parse { it with machine := first } natives b fs q hdump hfs hq
  have ht := @eval_of_parse it natives _ _ _ hdump hboth happend
  dsimp only
  rw [ht, hr, hs]
  constructor
  · intro v hv
    obtain ⟨hresembles, houtcome⟩ := hvalue v (Outcome.evaluated_eq_value_iff.1 hv)
    refine ⟨⟨hresembles, rfl, rfl⟩, ?_⟩
    dsimp only
    rw [houtcome, ← Outcome.evaluated_relocate]
    split
    · rfl
    · rfl
  · intro hv
    obtain ⟨hresembles, houtcome⟩ := herror fun v h => hv v (Outcome.evaluated_eq_value_iff.2 h)
    exact ⟨⟨hresembles, rfl, rfl⟩, congrArg Outcome.evaluated houtcome⟩

/-- Every form of the first source meets a limit that the last form of the second exceeds. -/
theorem eval_append_line_limit :
    let x := ascii "x"
    let a := ascii "(define x 7)\n(display x) x"
    let b := ascii "x (cons x\n (car x))"
    let es : List Expr :=
      [.define x (.static (.number 7) ⟨10, 0, 10⟩) {},
        .call (ascii "display") [.reference x ⟨22, 1, 9⟩] ⟨13, 1, 0⟩, .reference x ⟨25, 1, 12⟩]
    let fs : List Expr :=
      [.reference x {}, .call (ascii "cons") [.reference x ⟨8, 0, 8⟩,
        .call (ascii "car") [.reference x ⟨16, 1, 6⟩] ⟨11, 1, 1⟩] ⟨2, 0, 2⟩]
    let it : Interpreter := { machine := { maxFrames := 3, limit := 5 } }
    let r := it.eval .standard a
    let s := r.1.eval .standard b
    let t := it.eval .standard (a ++ 0x0A :: b)
    parse a = .ok es ∧ parse b = .ok fs ∧ r.2 = .value (.number 7) ∧
      s.2 = .error .null
        (.run ⟨.instructionLimit, ⟨4, 1, 0⟩, [⟨4, 1, 0⟩, ⟨3, 1, 0⟩, ⟨1, 0, 1⟩]⟩) ∧
      s.1.Resembles t.1 ∧
      t.2 = .error .null
        (.run ⟨.instructionLimit, ⟨9, 3, 0⟩, [⟨9, 3, 0⟩, ⟨8, 3, 0⟩, ⟨6, 2, 1⟩]⟩) := by
  intro x a b es fs it r s t
  have hes : parse a = .ok es := by decide +kernel
  have hfs : parse b = .ok fs := by decide +kernel
  obtain ⟨p, hp, hvalue, -⟩ := @eval_append_line it .standard Registry.aloof_standard
    Registry.unobservant_standard rfl a b es fs hes hfs
  cases hp
  have hr : r.2 = .value (.number 7) := by decide +kernel
  have hs : s.2 = .error .null
      (.run ⟨.instructionLimit, ⟨4, 1, 0⟩, [⟨4, 1, 0⟩, ⟨3, 1, 0⟩, ⟨1, 0, 1⟩]⟩) := by
    decide +kernel
  obtain ⟨hresembles, ht⟩ := hvalue _ hr
  refine ⟨hes, hfs, hr, hs, hresembles, ht.trans ?_⟩
  rw [if_neg (List.cons_ne_nil _ _)]
  exact congrArg (EvalOutcome.relocate 5 2) hs

end Interpreter

end MiniScheme
