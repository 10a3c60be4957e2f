import MiniScheme.Cli.History
import MiniScheme.Cli.Report

/-! Interactive sessions. Lines are gathered until they make up complete forms, which are then
evaluated. -/
namespace MiniScheme.Cli

/-- What the lines so far amount to. -/
inductive Reading where
  | unfinished (text : Bytes)
  | form (text : Bytes)
deriving DecidableEq, Repr

/-- Adds a line to the lines that wait for more. -/
def Reading.add (pending line : Bytes) : Reading :=
  let text := if pending = [] then line else pending ++ newline :: line
  match parse text with
  | .ok _ => .form text
  | .error e => if e.isIncomplete then .unfinished text else .form text

/-- Reads lines until they form complete forms, where `pending` is the text of the lines so far.
The result is their text and the lines that follow; `none` at the end of the input. -/
def readForm (pending : Bytes) : List Bytes → Option (Bytes × List Bytes)
  | [] => none
  | line :: lines =>
    match Reading.add pending line with
    | .unfinished text => readForm text lines
    | .form text => some (text, lines)

theorem length_readForm {pending text : Bytes} {lines rest : List Bytes}
    (h : readForm pending lines = some (text, rest)) : rest.length < lines.length := by
  induction lines generalizing pending with
  | nil => cases h
  | cons line lines ih =>
    rw [readForm] at h
    split at h
    · exact Nat.lt_succ_of_lt (ih h)
    · cases h
      exact Nat.lt_succ_self _

def prompt (pending : Bytes) : Bytes :=
  if pending = [] then ascii "scm> " else ascii "...> "

/-- The prompts that reading a form shows, one before each line. -/
def prompts (pending : Bytes) : List Bytes → Bytes
  | [] => prompt pending
  | line :: lines =>
    prompt pending ++
      match Reading.add pending line with
      | .unfinished text => prompts text lines
      | .form _ => []

/-- Lower case as far as it can turn a character into an ASCII letter. -/
def lowerCase (c : Char) : Char :=
  if c.toNat = 0x130 then 'i' else if c.toNat = 0x212A then 'k' else c.toLower

inductive Command where
  | quit
  | globals
  | unknown
deriving DecidableEq, Repr

/-- Commands start with a colon, and may be written in capitals. -/
def Command.of? (text : Bytes) : Option Command :=
  if text.head? ≠ some 0x3A then none
  else
    let lower := ((Text.glyphs text).map fun g => lowerCase g.char)
    if lower = ":quit".toList then some .quit
    else if lower = ":globals".toList then some .globals
    else some .unknown

structure Repl where
  interpreter : Interpreter
  history : History := []

namespace Repl

def banner : Bytes :=
  ascii "scm REPL\nCtrl+C cancels input, Ctrl+D exits. Type :quit to exit.\n"

def globalsText (g : Globals) : Bytes :=
  g.entries.flatMap fun (name, value) =>
    name ++ ascii " = " ++ value.write?.getD [] ++ ascii "\n"

/-- The line that shows a value. Output procedures have already put out their text. -/
def resultLine : Value → Bytes
  | .eof => ascii "\n"
  | v => v.write?.getD [] ++ ascii "\n"

/-- Evaluates complete forms, and remembers them on one line. -/
def submit (r : Repl) (natives : Registry) (text : Bytes) : Repl × Output :=
  let entry := text.map fun b => if b = newline then 0x20 else b
  let (interpreter, output, value) := evaluate r.interpreter natives (ascii "repl") text
  ({ r with interpreter, history := r.history.remember entry },
    output ++ ⟨(value.map resultLine).getD [], []⟩)

/-- What a session makes of a form. -/
structure Turn where
  repl : Repl
  output : Output := {}
  isOver : Bool := false

/-- Acts on complete forms or on a command. -/
def act (r : Repl) (natives : Registry) (text : Bytes) : Turn :=
  let trimmed := Text.trim text
  if trimmed = [] then { repl := r }
  else
    match Command.of? trimmed with
    | some .quit => { repl := r, isOver := true }
    | some .globals =>
      { repl := r, output := ⟨globalsText r.interpreter.machine.globals, []⟩ }
    | some .unknown =>
      { repl := r, output := ⟨ascii "unknown command. Type :quit to exit.\n", []⟩ }
    | none =>
      let (repl, output) := r.submit natives text
      { repl, output }

/-- Reads form after form and acts on each, until the session is over or the input ends. -/
def session (r : Repl) (natives : Registry) (lines : List Bytes) : Repl × Output :=
  let asked : Output := ⟨prompts [] lines, []⟩
  match _h : readForm [] lines with
  | none => (r, asked ++ ⟨ascii "\n", []⟩)
  | some (text, rest) =>
    let turn := r.act natives text
    let output := asked ++ turn.output
    if turn.isOver then (turn.repl, output)
    else
      let (last, more) := turn.repl.session natives rest
      (last, output ++ more)
termination_by lines.length
decreasing_by exact length_readForm _h

end Repl

end MiniScheme.Cli
