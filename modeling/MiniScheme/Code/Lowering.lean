import MiniScheme.Code.Chunk
import MiniScheme.Expr

/-! From trees to code. Every node becomes one chunk; chunks are numbered in preorder. -/
namespace MiniScheme

/-- What keeps a tree from being lowered. -/
inductive Defect where
  | missingForm
  | unnamedDefinition
  | missingBody (name : Bytes)
  | unnamedCall
  | missingArgument (index : Nat) (procedure : Bytes)
  | unnamedReference
  | foreign (typeName : Bytes)
deriving DecidableEq, Repr

namespace Defect

inductive Family where
  | malformed
  | unsupported
deriving DecidableEq, Repr

def Family.summary : Family → Bytes
  | malformed => ascii "malformed special form"
  | unsupported => ascii "unsupported expression"

/-- The message for a defect of this family; an empty detail is left out. -/
def Family.message (family : Family) (pos : Position) (detail : Bytes) : Bytes :=
  pos.text ++ ascii ": " ++ family.summary ++
    if detail = [] then [] else ascii ": " ++ detail

def family : Defect → Family
  | foreign _ => .unsupported
  | _ => .malformed

def detail : Defect → Bytes
  | missingForm => ascii "missing expression"
  | unnamedDefinition => ascii "define without a target name"
  | missingBody name => ascii "define " ++ name ++ ascii " without a body"
  | unnamedCall => ascii "call without a procedure name"
  | missingArgument index procedure =>
    ascii "argument " ++ Text.decimal index ++ ascii " of " ++ procedure ++
      ascii " is missing"
  | unnamedReference => ascii "variable without a name"
  | foreign typeName => typeName

end Defect

structure CompileError where
  pos : Position
  defect : Defect
deriving DecidableEq, Repr

def CompileError.message (e : CompileError) : Bytes :=
  e.defect.family.message e.pos e.defect.detail

namespace Expr

def isMissing : Expr → Bool
  | missing => true
  | _ => false

mutual

/-- The chunks of a tree in preorder, the first of them numbered `id`. -/
def lower (id : Nat) : Expr → Except CompileError (List Chunk)
  | missing => .error ⟨{}, .missingForm⟩
  | foreign typeName pos => .error ⟨pos, .foreign typeName⟩
  | empty pos => .ok [.onLine id pos.line []]
  | static value pos => .ok [.onLine id pos.line [.immediate value]]
  | reference name pos =>
    if name = [] then .error ⟨pos, .unnamedReference⟩
    else .ok [.onLine id pos.line [.lookup name, .load]]
  | define name body pos =>
    if name = [] then .error ⟨pos, .unnamedDefinition⟩
    else if body.isMissing then .error ⟨pos, .missingBody name⟩
    else do
      let chunks ← lower (id + 1) body
      .ok (.onLine id pos.line [.push (id + 1 : Nat), .define name] :: chunks)
  | call name args pos =>
    if name = [] then .error ⟨pos, .unnamedCall⟩
    else do
      let (ids, chunks) ← lowerArgs name pos 0 (id + 1) args
      let code := ids.map (fun (i : Nat) => Op.push i) ++ [.lookup name, .call args.length]
      .ok (.onLine id pos.line code :: chunks)

/-- The numbers and the chunks of the arguments from the one at `index` on. -/
def lowerArgs (procedure : Bytes) (pos : Position) (index id : Nat) :
    List Expr → Except CompileError (List Nat × List Chunk)
  | [] => .ok ([], [])
  | arg :: args =>
    if arg.isMissing then .error ⟨pos, .missingArgument index procedure⟩
    else do
      let chunks ← lower id arg
      let (ids, rest) ← lowerArgs procedure pos (index + 1) (id + chunks.length) args
      .ok (id :: ids, chunks ++ rest)

end

/-- The numbers and the chunks of top-level forms. -/
def lowerForms (id : Nat) : List Expr → Except CompileError (List Nat × List Chunk)
  | [] => .ok ([], [])
  | form :: forms => do
    let chunks ← lower id form
    let (ids, rest) ← lowerForms (id + chunks.length) forms
    .ok (id :: ids, chunks ++ rest)

end Expr

/-- The program of a list of top-level forms. -/
def compile (forms : List Expr) : Except CompileError Program := do
  let (ids, chunks) ← Expr.lowerForms 0 forms
  .ok ⟨chunks.map some, ids.map fun (i : Nat) => (i : Int)⟩

end MiniScheme
