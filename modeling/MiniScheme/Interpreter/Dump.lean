import MiniScheme.Expr
import MiniScheme.Text.Quoted
import MiniScheme.Token

/-! The debugging dump of tokens and trees: nested records, four spaces a level, and cut off where
the nesting gets too deep. -/
namespace MiniScheme

namespace Dump

/-- A line of its own, indented by `level`. -/
def line (level : Nat) (text : Bytes) : Bytes :=
  List.replicate (4 * level) 0x20 ++ text ++ ascii "\n"

/-- A field of a record. The label includes the blanks that align the value. -/
def field (level : Nat) (label : String) (value : Bytes) : Bytes :=
  line level (ascii label ++ value ++ ascii ",")

/-- Lines between braces; the closing brace is indented to `level`. -/
def block (level : Nat) (body : Bytes) : Bytes :=
  ascii "\x7b\n" ++ body ++ List.replicate (4 * level) 0x20 ++ ascii "\x7d"

def truth (b : Bool) : Bytes :=
  if b then ascii "true" else ascii "false"

def hex (n : UInt64) : Bytes :=
  ascii "0x" ++ Text.digits 16 n.toNat

/-- The start of the source is an empty record. -/
def position (p : Position) : Bytes :=
  ascii "token.Position\x7b" ++
    (if p = {} then [] else
      ascii "Offset:" ++ Text.signedDecimal p.offset ++
      ascii ", Line:" ++ Text.signedDecimal p.line ++
      ascii ", Column:" ++ Text.signedDecimal p.column) ++
    ascii "\x7d"

def token (level : Nat) (t : Token) : Bytes :=
  block level
    (field (level + 1) "Type:    " (Text.quote t.kind.name) ++
      field (level + 1) "Literal: " (Text.quote t.literal) ++
      field (level + 1) "Bool:    " (truth t.kind.truth) ++
      field (level + 1) "Int:     " (hex t.kind.number) ++
      field (level + 1) "Pos:     " (position t.pos))

def tokens (ts : List Token) : Bytes :=
  ascii "tokens: []token.Token" ++
    (if ts.isEmpty then ascii "(nil)"
      else block 0 (ts.flatMap fun t => field 1 "" (token 1 t))) ++
    ascii "\n"

/-- The number by which the dump calls a kind of value. -/
def kindNumber : Value → Int
  | .null => 0
  | .boolean _ => 1
  | .bytes _ => 2
  | .char _ => 3
  | .eof => 4
  | .number _ => 5
  | .pair _ _ | .hollow => 6
  | .string _ => 7
  | .symbol _ => 8
  | .unknown kind => kind

/-- A value that source text can denote: its kind, and one field that is not blank. -/
def value (level : Nat) (v : Value) : Bytes :=
  let bool := match v with
    | .boolean b => b
    | _ => false
  let number := match v with
    | .number n => n
    | _ => 0
  let text := match v with
    | .string s | .symbol s => s
    | _ => []
  ascii "value.Value" ++ block level
    (field (level + 1) "Kind:  " (Text.signedDecimal (kindNumber v)) ++
      field (level + 1) "B:     " (truth bool) ++
      field (level + 1) "Num:   " (hex number) ++
      field (level + 1) "Str:   " (Text.quote text) ++
      field (level + 1) "Bytes: " (ascii "nil") ++
      field (level + 1) "Ch:    " (ascii "0") ++
      field (level + 1) "Pair:  " (ascii "(*value.Pair)(nil)"))

def depthLimit : Nat := 10

def exceeded : Bytes := ascii "!%v(DEPTH EXCEEDED)"

mutual

/-- A tree at a depth; a child is one or two deeper than its parent. -/
def expr (level depth : Nat) (e : Expr) : Bytes :=
  if depthLimit < depth then exceeded
  else
    let posField (pos : Position) := field (level + 1) "PosT: " (position pos)
    match e with
    | .empty pos =>
      ascii "ast.Empty" ++
        if pos = {} then ascii "\x7b\x7d" else block level (posField pos)
    | .static v pos =>
      ascii "ast.StaticValue" ++
        block level (field (level + 1) "Value: " (value (level + 1) v) ++ posField pos)
    | .reference name pos =>
      ascii "ast.Variable" ++
        block level (field (level + 1) "Name: " (Text.quote name) ++ posField pos)
    | .define name body pos =>
      ascii "ast.Definition" ++
        block level (field (level + 1) "Name: " (Text.quote name) ++
          field (level + 1) "Body: " (ascii "&" ++ expr (level + 1) (depth + 1) body) ++
          posField pos)
    | .call name args pos =>
      ascii "ast.Call" ++
        block level (field (level + 1) "Name: " (Text.quote name) ++
          field (level + 1) "Args: "
            (if args.isEmpty then ascii "nil"
              else block (level + 1) (elements (level + 2) depth args)) ++
          posField pos)
    | .foreign typeName _ => typeName
    | .missing => ascii "nil"

/-- The elements of a list at a depth, one field each. -/
def elements (level depth : Nat) : List Expr → Bytes
  | [] => []
  | e :: es =>
    field level ""
      (if depthLimit < depth + 1 then exceeded
        else ascii "&" ++ expr level (depth + 2) e) ++
      elements level depth es

end

def exprs (es : List Expr) : Bytes :=
  ascii "ast: []ast.Expression" ++
    (if es.isEmpty then ascii "(nil)" else block 0 (elements 1 0 es)) ++
    ascii "\n"

end Dump

/-- How a dump shows the tokens and the trees of a source. -/
structure Printer where
  tokens : List Token → Bytes
  exprs : List Expr → Bytes

def Printer.records : Printer :=
  ⟨Dump.tokens, Dump.exprs⟩

end MiniScheme
