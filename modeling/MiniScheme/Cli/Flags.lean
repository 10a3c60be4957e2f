import MiniScheme.Cli.Numeral
import MiniScheme.Text.Quoted

/-! Command-line flags. -/
namespace MiniScheme.Cli

/-- Flags come before operands. -/
structure Flags where
  debug : Bool := false
  source : Bytes := []
  repl : Bool := false
  limit : Int := 0
  operands : List Bytes := []
deriving DecidableEq, Repr

inductive FlagError where
  | help
  | badSyntax (arg : Bytes)
  | undefined (name : Bytes)
  | needsArgument (name : Bytes)
  | invalidValue (name value : Bytes) (reason : NumeralError)
  | invalidBoolean (name value : Bytes)
deriving DecidableEq, Repr

/-- A request for help has no message. -/
def FlagError.message? : FlagError → Option Bytes
  | help => none
  | badSyntax arg => some (ascii "bad flag syntax: " ++ arg)
  | undefined name => some (ascii "flag provided but not defined: -" ++ name)
  | needsArgument name => some (ascii "flag needs an argument: -" ++ name)
  | invalidValue name value reason =>
    some (ascii "invalid value " ++ Text.quote value ++ ascii " for flag -" ++ name ++
      ascii ": " ++ reason.message)
  | invalidBoolean name value =>
    some (ascii "invalid boolean value " ++ Text.quote value ++ ascii " for -" ++ name ++
      ascii ": " ++ NumeralError.malformed.message)

/-- What one argument is. -/
inductive Argument where
  | operand
  | terminator
  | malformed
  | flag (name : Bytes) (value : Option Bytes)
deriving DecidableEq, Repr

/-- A flag without its dashes: a name, and a value after the first equals sign. -/
def splitFlag (text : Bytes) : Argument :=
  match text with
  | [] | 0x2D :: _ | 0x3D :: _ => .malformed
  | _ =>
    match text.dropWhile (· ≠ 0x3D) with
    | [] => .flag text none
    | _ :: value => .flag (text.takeWhile (· ≠ 0x3D)) (some value)

/-- A lone dash is an operand, two dashes end the flags. -/
def classify : Bytes → Argument
  | [0x2D, 0x2D] => .terminator
  | 0x2D :: 0x2D :: rest => splitFlag rest
  | 0x2D :: b :: rest => splitFlag (b :: rest)
  | _ => .operand

def readBoolean? (text : Bytes) : Option Bool :=
  if ["1", "t", "T", "true", "TRUE", "True"].any (ascii · == text) then some true
  else if ["0", "f", "F", "false", "FALSE", "False"].any (ascii · == text) then some false
  else none

namespace Flags

inductive Name where
  | debug
  | source
  | repl
  | limit
deriving DecidableEq, Repr

def name? (text : Bytes) : Option Name :=
  if text = ascii "debug" then some .debug
  else if text = ascii "e" then some .source
  else if text = ascii "repl" then some .repl
  else if text = ascii "limit" then some .limit
  else none

/-- Whether a flag may occur without a value. -/
def Name.isBoolean : Name → Bool
  | debug | repl => true
  | source | limit => false

/-- Sets a flag from the text of its value. -/
def set (f : Flags) (name : Name) (spelt value : Bytes) : Except FlagError Flags :=
  match name with
  | .source => .ok { f with source := value }
  | .limit =>
    match readInteger value with
    | .ok limit => .ok { f with limit }
    | .error reason => .error (.invalidValue spelt value reason)
  | .debug =>
    match readBoolean? value with
    | some debug => .ok { f with debug }
    | none => .error (.invalidBoolean spelt value)
  | .repl =>
    match readBoolean? value with
    | some repl => .ok { f with repl }
    | none => .error (.invalidBoolean spelt value)

/-- Reads arguments up to the first operand. -/
def parse (f : Flags) : List Bytes → Except FlagError Flags
  | [] => .ok f
  | arg :: args =>
    match classify arg with
    | .operand => .ok { f with operands := arg :: args }
    | .terminator => .ok { f with operands := args }
    | .malformed => .error (.badSyntax arg)
    | .flag spelt value =>
      match name? spelt with
      | none =>
        if spelt = ascii "help" ∨ spelt = ascii "h" then .error .help
        else .error (.undefined spelt)
      | some name =>
        match value with
        | some value => do
          let f ← f.set name spelt value
          f.parse args
        | none =>
          if name.isBoolean then do
            let f ← f.set name spelt (ascii "true")
            f.parse args
          else
            match args with
            | [] => .error (.needsArgument spelt)
            | value :: args => do
              let f ← f.set name spelt value
              f.parse args

end Flags

def demo : Bytes := ascii "(define x (+ 1 2)) (display x)"

def usage : Bytes :=
  ascii "usage: scm [flags] [file | -]\n\nWith no arguments the demo program " ++
  Text.quote demo ++
  ascii (" is run.\n" ++
    "A \"-\" argument reads source from stdin, or starts the REPL on a terminal.\n\n" ++
    "flags:\n" ++
    "  -debug\n    \tdump tokens, expressions and bytecode to stderr\n" ++
    "  -e source\n    \tevaluate source and exit\n" ++
    "  -limit int\n    \tinstruction limit per top-level form (0 for none)\n" ++
    "  -repl\n    \tstart an interactive session\n")

/-- What the command line asks for. -/
inductive Task where
  | evaluate (name source : Bytes)
  | session
  | standardInput
  | file (path : Bytes)
deriving DecidableEq, Repr

/-- An inline source comes first, then a session, then the first operand; an empty inline source
counts as none. -/
def Flags.task (f : Flags) : Task :=
  if f.source ≠ [] then .evaluate (ascii "-e") f.source
  else if f.repl then .session
  else
    match f.operands with
    | [] => .evaluate (ascii "demo") demo
    | operand :: _ => if operand = ascii "-" then .standardInput else .file operand

end MiniScheme.Cli
