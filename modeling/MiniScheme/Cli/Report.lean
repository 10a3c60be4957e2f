import MiniScheme.Cli.LogLine
import MiniScheme.Interpreter

/-! Evaluation as the user sees it: text on the two output streams. -/
namespace MiniScheme.Cli

structure Output where
  stdout : Bytes := []
  stderr : Bytes := []
deriving DecidableEq, Repr

instance : Append Output where
  append a b := ⟨a.stdout ++ b.stdout, a.stderr ++ b.stderr⟩

/-- An interpreter whose output is kept until it is collected. -/
def interpreter (debug : Bool) (limit : Int) : Interpreter where
  machine := { console := { log := if debug then some #[] else none } : Machine }.setLimit limit
  dump := if debug then some [] else none

/-- Takes away what an interpreter has put out. -/
def collect (it : Interpreter) : Interpreter × Output :=
  let console := it.machine.console
  let log := (console.log.getD #[]).toList.flatMap logLine
  let emptied := { console with out := #[], log := console.log.map fun _ => #[] }
  ({ it with machine := { it.machine with console := emptied }, dump := it.dump.map fun _ => [] },
    ⟨(it.machine.writer.accepted console.out).toList.flatten, it.dump.getD [] ++ log⟩)

/-- Evaluates a source. The result is the value, if there is one; an error is put out. -/
def evaluate (it : Interpreter) (natives : Registry) (name source : Bytes) :
    Interpreter × Output × Option Value :=
  let (it, outcome) := it.eval natives source
  let (it, output) := collect it
  match outcome with
  | .value v => (it, output, some v)
  | .error _ e => (it, output ++ ⟨[], e.message name ++ ascii "\n"⟩, none)
  | .crash => (it, output, none)

end MiniScheme.Cli
