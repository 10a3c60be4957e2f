import MiniScheme.Cli.Directory
import MiniScheme.Cli.Flags
import MiniScheme.Cli.Repl

/-! The whole command line, as a function of what it finds around it. -/
namespace MiniScheme.Cli

/-- The history is the content of the history file, if there is one. -/
structure Surroundings where
  args : List Bytes
  stdin : Bytes := []
  files : Directory := []
  history : Option Bytes := none

structure Result where
  exit : UInt8
  output : Output
  history : Option Bytes

/-- Evaluates one source, and ends the output with a newline if that succeeds. -/
def runSource (it : Interpreter) (natives : Registry) (name source : Bytes) : UInt8 × Output :=
  match evaluate it natives name source with
  | (_, output, some _) => (0, output ++ ⟨ascii "\n", []⟩)
  | (_, output, none) => (1, output)

/-- The exit status and the text for flags that cannot be used. -/
def refuse (e : FlagError) : UInt8 × Output :=
  match e.message? with
  | none => (0, ⟨[], usage⟩)
  | some message => (2, ⟨[], message ++ ascii "\n" ++ usage⟩)

def run (natives : Registry) (env : Surroundings) : Result :=
  match ({} : Flags).parse env.args with
  | .error e =>
    let (exit, output) := refuse e
    ⟨exit, output, env.history⟩
  | .ok flags =>
    let it := interpreter flags.debug flags.limit
    let finish := fun ((exit, output) : UInt8 × Output) => (⟨exit, output, env.history⟩ : Result)
    match flags.task with
    | .evaluate name source => finish (runSource it natives name source)
    | .standardInput => finish (runSource it natives (ascii "stdin") env.stdin)
    | .file path =>
      match env.files.read path with
      | .ok source => finish (runSource it natives (baseName path) source)
      | .error e => finish (1, ⟨[], e.message path ++ ascii "\n"⟩)
    | .session =>
      let repl : Repl := { interpreter := it, history := (env.history.map History.ofText).getD [] }
      let (last, output) := repl.session natives ((allLines env.stdin).map (·.text))
      ⟨0, ⟨Repl.banner, []⟩ ++ output, some last.history.text⟩

end MiniScheme.Cli
