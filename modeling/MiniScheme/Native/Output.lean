import MiniScheme.Machine.Native

/-! Output procedures. Each writes once, and gives the end-of-file value. -/
namespace MiniScheme.Native

/-- Gives a text to the machine's writer; a text that does not exist cannot be written. -/
def emit (m : Machine) : Option Bytes → Console × Reply
  | none => (m.console, .crashed)
  | some text =>
    let console := { m.console with out := m.console.out.push text }
    match m.writer.refusal? console.out with
    | some error => (console, .refused (.other error))
    | none => (console, .value .eof)

def display : Native :=
  ⟨ascii "display", 1, fun m args => emit m (args.head?.bind Value.display?)⟩

def write : Native :=
  ⟨ascii "write", 1, fun m args => emit m (args.head?.bind Value.write?)⟩

def newline : Native :=
  ⟨ascii "newline", 0, fun m _ => emit m (some (ascii "\n"))⟩

def output : List Native :=
  [display, write, newline]

end MiniScheme.Native
