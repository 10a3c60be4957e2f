import MiniScheme.Code.Lowering
import MiniScheme.Expr.Parser
import MiniScheme.Interpreter.Dump
import MiniScheme.Machine.Run

/-! Interpreters: source text in, value out, against bindings that last. -/
namespace MiniScheme

/-- Why an evaluation failed, by stage. -/
inductive EvalError where
  | noInterpreter
  | lex (e : LexError)
  | parse (e : ParseError)
  | compile (e : CompileError)
  | listing (e : ListingError)
  | run (e : RunError)
deriving DecidableEq, Repr

/-- The message names the source and the stage. -/
def EvalError.message (name : Bytes) : EvalError → Bytes
  | noInterpreter => ascii "nil interpreter"
  | lex e => name ++ ascii ": lex: " ++ e.message
  | parse e => name ++ ascii ": parse: " ++ e.message
  | compile e => name ++ ascii ": compile: " ++ e.message
  | listing e => name ++ ascii ": disassemble: " ++ e.message
  | run e => name ++ ascii ": run: " ++ e.message

inductive EvalOutcome where
  | value (v : Value)
  | error (v : Value) (e : EvalError)
  | crash
deriving DecidableEq, Repr

/-- The dump grows by every evaluation, where there is one. -/
structure Interpreter where
  machine : Machine := {}
  printer : Printer := .records
  dump : Option Bytes := none

namespace Interpreter

/-- Adds to the dump, if there is one. -/
def note (it : Interpreter) (text : Unit → Bytes) : Interpreter :=
  { it with dump := it.dump.map (· ++ text ()) }

def runProgram (it : Interpreter) (natives : Registry) (p : Program) :
    Interpreter × EvalOutcome :=
  match it.machine.run natives (some p) with
  | (machine, .value v) => ({ it with machine }, .value v)
  | (machine, .error v e) => ({ it with machine }, .error v (.run e))
  | (machine, .crash) => ({ it with machine }, .crash)

/-- Runs a program, after its listing has been added to the dump. -/
def runListed (it : Interpreter) (natives : Registry) (p : Program) :
    Interpreter × EvalOutcome :=
  if it.dump.isNone then it.runProgram natives p
  else
    match Listing.ofProgram? natives.signatures (some p) with
    | none => (it, .crash)
    | some listing =>
      let it := it.note fun _ => listing.text
      match listing.error with
      | some e => (it, .error .null (.listing e))
      | none => it.runProgram natives p

/-- Evaluates a source; the value is that of its last form. With a dump, all of the source is
scanned before any of it is parsed. -/
def eval (it : Interpreter) (natives : Registry) (source : Bytes) : Interpreter × EvalOutcome :=
  let (tokens, fault) := tokenize source
  match it.dump, fault with
  | some _, some e => (it, .error .null (.lex e))
  | _, _ =>
    let it := it.note fun _ => it.printer.tokens tokens
    match Expr.ofTokens (fault.map .lexical) tokens with
    | .error e => (it, .error .null (.parse e))
    | .ok forms =>
      let it := it.note fun _ => it.printer.exprs forms
      match MiniScheme.compile forms with
      | .error e => (it, .error .null (.compile e))
      | .ok p => it.runListed natives p

def define (it : Interpreter) (name : Bytes) (value : Value) : Interpreter :=
  { it with machine := it.machine.define name value }

def duplicate (it : Interpreter) : Interpreter :=
  { it with machine := it.machine.duplicate }

end Interpreter

end MiniScheme
