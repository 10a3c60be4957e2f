import MiniScheme.Interpreter
import MiniScheme.Proofs.Expr.Lines
import MiniScheme.Proofs.Machine.Placement
import MiniScheme.Proofs.Value.Equality

/-! The answers of an interpreter are independent of its history. Earlier evaluations leave a
program and open frames in the machine, which no later evaluation observes. -/
namespace MiniScheme

theorem Globals.copy_eq (g : Globals) : g.copy = g := by
  have hentry (entry : Bytes × Value) : (entry.1, entry.2.copy) = entry := by rw [Value.copy_eq]
  apply Globals.ext
  change g.entries.map (fun entry => (entry.1, entry.2.copy)) = g.entries
  rw [funext hentry, List.map_id']

namespace Interpreter

/-- Interpreters with the same options, bindings and output, both with a dump or both without. -/
structure Resembles (a b : Interpreter) : Prop where
  machine : a.machine.Resembles b.machine
  printer : b.printer = a.printer
  dump : b.dump.isSome = a.dump.isSome

def evalForms (natives : Registry) (it : Interpreter) :
    Except ParseError (List Expr) → Interpreter × EvalOutcome
  | .error e => (it, .error .null (.parse e))
  | .ok forms =>
    let it := it.note fun _ => it.printer.exprs forms
    match MiniScheme.compile forms with
    | .error e => (it, .error .null (.compile e))
    | .ok p => it.runListed natives p

theorem eval_of_tokenize {source : Bytes} {tokens : List Token} {fault : Option LexError}
    (h : tokenize source = (tokens, fault)) (it : Interpreter) (natives : Registry) :
    it.eval natives source =
      let read := (it.note fun _ => it.printer.tokens tokens).evalForms natives (parse source)
      match fault with
      | none => read
      | some e => if it.dump.isNone then read else (it, .error .null (.lex e)) := by
  simp only [eval, h, parse_eq_ofTokens h]
  cases fault with
  | none =>
    cases it.dump with
    | none => rfl
    | some text => rfl
  | some e =>
    cases it.dump with
    | none => rfl
    | some text => rfl

/-- `Uniform f`: on resembling interpreters `f` has the same outcome, leaves resembling
interpreters, and adds the same text to their dumps. -/
def Uniform (f : Interpreter → Interpreter × EvalOutcome) : Prop :=
  ∀ a b, a.Resembles b → (f b).2 = (f a).2 ∧ (f a).1.Resembles (f b).1 ∧
    ∃ text, (f a).1.dump = a.dump.map (· ++ text) ∧ (f b).1.dump = b.dump.map (· ++ text)

theorem uniform_stay (o : EvalOutcome) : Uniform fun it => (it, o) := by
  intro a b h
  refine ⟨rfl, h, [], ?_, ?_⟩
  · simp
  · simp

theorem Uniform.note {f : Interpreter → Interpreter × EvalOutcome} (hf : Uniform f)
    (text : Printer → Bytes) : Uniform fun it => f (it.note fun _ => text it.printer) := by
  intro a b h
  have hnoted : (a.note fun _ => text a.printer).Resembles (b.note fun _ => text b.printer) := by
    refine ⟨h.machine, h.printer, ?_⟩
    simp [Interpreter.note, h.dump]
  obtain ⟨houtcome, hresembles, added, ha, hb⟩ := hf _ _ hnoted
  refine ⟨houtcome, hresembles, text a.printer ++ added, ?_, ?_⟩
  · rw [ha]
    simp [Interpreter.note, Function.comp_def]
  · rw [hb, h.printer]
    simp [Interpreter.note, Function.comp_def]

theorem Uniform.ite {f g : Interpreter → Interpreter × EvalOutcome} (hf : Uniform f)
    (hg : Uniform g) : Uniform fun it => if it.dump.isNone then f it else g it := by
  intro a b h
  have hdump : b.dump.isNone = a.dump.isNone := by
    rw [← Option.not_isSome, ← Option.not_isSome, h.dump]
  dsimp only
  rw [hdump]
  split
  · exact hf a b h
  · exact hg a b h

section

variable {natives : Registry} (hu : ∀ n ∈ natives.callable, n.Unobservant)

include hu

theorem uniform_runProgram {forms : List Expr} {p : Program} (hp : compile forms = .ok p)
    (hforms : Expr.areSolid forms) : Uniform (·.runProgram natives p) := by
  intro a b h
  obtain ⟨hmachine, houtcome⟩ := h.machine.run hu hp hforms
  dsimp only
  unfold runProgram
  generalize a.machine.run natives (some p) = r at hmachine houtcome ⊢
  generalize b.machine.run natives (some p) = s at hmachine houtcome ⊢
  obtain ⟨r, outcome⟩ := r
  obtain ⟨s, _⟩ := s
  cases houtcome
  cases outcome with
  | value | error | crash => exact ⟨rfl, ⟨hmachine, h.printer, h.dump⟩, [], by simp, by simp⟩

theorem uniform_runListed {forms : List Expr} {p : Program} (hp : compile forms = .ok p)
    (hforms : Expr.areSolid forms) : Uniform (·.runListed natives p) := by
  have hrun := uniform_runProgram hu hp hforms
  unfold runListed
  refine hrun.ite ?_
  cases Listing.ofProgram? natives.signatures (some p) with
  | none => exact uniform_stay .crash
  | some listing =>
    cases hlisted : listing.error with
    | none =>
      simp only [hlisted]
      exact hrun.note fun _ => listing.text
    | some e =>
      simp only [hlisted]
      exact (uniform_stay _).note fun _ => listing.text

theorem uniform_evalForms (source : Bytes) : Uniform (·.evalForms natives (parse source)) := by
  cases hforms : parse source with
  | error e => exact uniform_stay _
  | ok forms =>
    have hproper := areProper_of_parse hforms
    obtain ⟨p, hp⟩ := compile_of_areProper hproper
    have hrun := uniform_runListed hu hp (Expr.areSolid_of_areProper forms hproper)
    simp only [evalForms, hp]
    exact hrun.note fun printer => printer.exprs forms

theorem uniform_eval (source : Bytes) : Uniform (·.eval natives source) := by
  obtain ⟨⟨tokens, fault⟩, htokens⟩ : ∃ r, tokenize source = r := ⟨_, rfl⟩
  have hread := (uniform_evalForms hu source).note fun printer => printer.tokens tokens
  simp only [eval_of_tokenize htokens]
  cases fault with
  | none => exact hread
  | some e => exact hread.ite (uniform_stay _)

end

def evalAll (it : Interpreter) (natives : Registry) : List Bytes → Interpreter × List EvalOutcome
  | [] => (it, [])
  | source :: sources =>
    let (it, outcome) := it.eval natives source
    let (it, outcomes) := it.evalAll natives sources
    (it, outcome :: outcomes)

/-- A request to an interpreter. A duplication continues with the duplicate. -/
inductive Request where
  | eval (source : Bytes)
  | define (name : Bytes) (value : Value)
  | duplicate

def perform (it : Interpreter) (natives : Registry) : Request → Interpreter
  | .eval source => (it.eval natives source).1
  | .define name value => it.define name value
  | .duplicate => it.duplicate

def after (it : Interpreter) (natives : Registry) (past : List Request) : Interpreter :=
  past.foldl (fun it request => it.perform natives request) it

section

variable {natives : Registry} {it : Interpreter}

end

theorem Resembles.evalAll {natives : Registry} (hu : ∀ n ∈ natives.callable, n.Unobservant)
    {a b : Interpreter} (h : a.Resembles b) (sources : List Bytes) :
    let r := a.evalAll natives sources
    let s := b.evalAll natives sources
    s.2 = r.2 ∧ r.1.Resembles s.1 ∧
      ∃ text, r.1.dump = a.dump.map (· ++ text) ∧ s.1.dump = b.dump.map (· ++ text) := by
  induction sources generalizing a b with
  | nil => exact ⟨rfl, h, [], by simp [Interpreter.evalAll], by simp [Interpreter.evalAll]⟩
  | cons source sources ih =>
    obtain ⟨houtcome, hnext, text, hra, hrb⟩ := uniform_eval hu source a b h
    obtain ⟨houtcomes, hlast, text', hla, hlb⟩ := ih hnext
    refine ⟨?_, hlast, text ++ text', ?_, ?_⟩
    · simp only [Interpreter.evalAll]
      rw [houtcome, houtcomes]
    · simp only [Interpreter.evalAll]
      rw [hla, hra, Option.map_map]
      simp [Function.comp_def]
    · simp only [Interpreter.evalAll]
      rw [hlb, hrb, Option.map_map]
      simp [Function.comp_def]

end Interpreter

end MiniScheme
