import MiniScheme.Cli.Run
import MiniScheme.Native.Standard

/-! The program `scm`. -/
namespace MiniScheme.Cli

def bytesOf (text : String) : Bytes :=
  text.toUTF8.toList

def put (stream : IO.FS.Stream) (text : Bytes) : IO Unit := do
  stream.write ⟨text.toArray⟩
  stream.flush

def putOutput (output : Output) : IO Unit := do
  put (← IO.getStdout) output.stdout
  put (← IO.getStderr) output.stderr

/-- The content of a file, or why there is none. -/
def readFile (path : String) : IO (Except FileError Bytes) := do
  try
    return .ok (← IO.FS.readBinFile path).toList
  catch
    | .inappropriateType _ code _ =>
      return .error (if code = 21 then .isDirectory else .notDirectory)
    | _ => return .error .notFound

/-- Adds input to the buffer until it holds a line or the input ends. -/
partial def fill (stream : IO.FS.Stream) (buffer : Bytes) : IO Bytes := do
  if buffer.contains newline || lineCapacity ≤ buffer.length then return buffer
  let more ← stream.read 4096
  if more.isEmpty then return buffer
  fill stream (buffer ++ more.toList)

partial def readAll (stream : IO.FS.Stream) (buffer : Array Bytes) : IO Bytes := do
  let more ← stream.read 65536
  if more.isEmpty then return buffer.toList.flatten
  readAll stream (buffer.push more.toList)

/-- Takes lines until the session is over or the input ends. -/
partial def converse (stream : IO.FS.Stream) (r : Repl) (pending buffer : Bytes) : IO Repl := do
  put (← IO.getStdout) (prompt pending)
  match readLine (← fill stream buffer) with
  | none =>
    put (← IO.getStdout) (ascii "\n")
    return r
  | some (line, buffer) =>
    match Reading.add pending line.text with
    | .unfinished text => converse stream r text buffer
    | .form text =>
      let turn := r.act Registry.standard text
      putOutput turn.output
      if turn.isOver then return turn.repl
      converse stream turn.repl [] buffer

def converseWithHistory (it : Interpreter) : IO Unit := do
  put (← IO.getStdout) Repl.banner
  let path := ((← IO.getEnv "HOME").getD "") ++ "/.scm_history"
  let history := match ← readFile path with
    | .ok content => History.ofText content
    | .error _ => []
  let last ← converse (← IO.getStdin) { interpreter := it, history } [] []
  try IO.FS.writeBinFile path ⟨last.history.text.toArray⟩ catch _ => pure ()

def finish (result : UInt8 × Output) : IO UInt32 := do
  putOutput result.2
  return result.1.toUInt32

/-- Runs the program; the result is its exit status. -/
def scm (args : List String) : IO UInt32 := do
  match ({} : Flags).parse (args.map bytesOf) with
  | .error e => finish (refuse e)
  | .ok flags =>
    let it := interpreter flags.debug flags.limit
    let evaluateOnce (name source : Bytes) := finish (runSource it Registry.standard name source)
    match flags.task with
    | .evaluate name source => evaluateOnce name source
    | .session =>
      converseWithHistory it
      return 0
    | .standardInput =>
      let stdin ← IO.getStdin
      if ← stdin.isTty then
        converseWithHistory it
        return 0
      evaluateOnce (ascii "stdin") (← readAll stdin #[])
    | .file path =>
      match ← readFile ((String.fromUTF8? ⟨path.toArray⟩).getD "") with
      | .ok source => evaluateOnce (baseName path) source
      | .error e => finish (1, ⟨[], e.message path ++ ascii "\n"⟩)

end MiniScheme.Cli

def main (args : List String) : IO UInt32 :=
  MiniScheme.Cli.scm args
