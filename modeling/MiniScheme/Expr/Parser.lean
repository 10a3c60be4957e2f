import MiniScheme.Expr
import MiniScheme.Expr.Run
import MiniScheme.Token.Stream

/-! Reading syntax trees off tokens. A form is first read up to its closing bracket as a run, and
only then taken apart; so an unclosed form is reported before anything wrong inside it. -/
namespace MiniScheme

/-- The errors that a token source may report instead of a token. -/
inductive Fault where
  | lexical (e : LexError)
  | host (text : Bytes)
deriving DecidableEq, Repr

def Fault.message : Fault → Bytes
  | lexical e => e.message
  | host text => text

inductive ParseError where
  | fault (cause : Fault)
  | unexpectedEnd (pos : Position)
  | unexpectedToken (pos : Position) (text : Bytes)
deriving DecidableEq, Repr

namespace ParseError

def unexpected (t : Token) : ParseError :=
  .unexpectedToken t.pos t.text

/-- The kind of an error, without its position and details. -/
def summary : ParseError → Bytes
  | fault _ => ascii "lex error"
  | unexpectedEnd _ => ascii "unexpected end of input"
  | unexpectedToken .. => ascii "unexpected token"

def message (e : ParseError) : Bytes :=
  match e with
  | fault cause => e.summary ++ ascii ": " ++ cause.message
  | unexpectedEnd pos => pos.text ++ ascii ": " ++ e.summary
  | unexpectedToken pos text =>
    pos.text ++ ascii ": " ++ e.summary ++ ascii " " ++ Text.quote text

/-- More text could complete the source. -/
def isIncomplete : ParseError → Bool
  | fault (.lexical e) => e.isIncomplete
  | fault (.host _) => false
  | unexpectedEnd _ => true
  | unexpectedToken .. => false

end ParseError

namespace Expr

/-- A form taken apart one level deep: its own parts are still runs. -/
inductive Shape where
  | leaf (e : Expr)
  | define (name : Bytes) (body : Run) (pos : Position)
  | call (name : Bytes) (args : List Run) (pos : Position)

/-- How many tokens the parts have together. -/
def Shape.size : Shape → Nat
  | leaf _ => 0
  | define _ body _ => body.length
  | call _ args _ => args.flatten.length

def ofAtom (t : Token) : Except ParseError Expr :=
  match t.kind with
  | .boolean b => .ok (.static (.boolean b) t.pos)
  | .integer n => .ok (.static (.number n) t.pos)
  | .string => .ok (.static (.string t.literal) t.pos)
  | .identifier => .ok (.reference t.literal t.pos)
  | .opening | .closing | .blank | .other _ => .error (.unexpected t)

/-- The forms among the tokens `ts`. -/
def runsOf (ts : List Token) : Except ParseError (List Run) :=
  match splitRuns ts with
  | .ok runs => .ok runs
  | .error (.stray t) => .error (.unexpected t)
  | .error .unclosed => .error (.unexpectedEnd ((ts.getLast?.map (·.pos)).getD {}))

/-- A definition, given the tokens after its head: a target and exactly one body. -/
def definition (opening closing : Token) : List Token → Except ParseError Shape
  | [] => .error (.unexpected closing)
  | target :: rest =>
    if target.kind ≠ .identifier then .error (.unexpected target)
    else do
      match ← runsOf rest with
      | [] => .error (.unexpected closing)
      | [body] => .ok (.define target.literal body opening.pos)
      | _ :: extra :: _ => .error (.unexpected (extra.headD closing))

/-- A bracketed form, given the tokens between its brackets. -/
def bracketed (opening closing : Token) : List Token → Except ParseError Shape
  | [] => .ok (.leaf (.empty opening.pos))
  | head :: rest =>
    if head.kind ≠ .identifier then .error (.unexpected head)
    else if head.literal = ascii "define" then definition opening closing rest
    else do
      let args ← runsOf rest
      .ok (.call head.literal args opening.pos)

def shape : Run → Except ParseError Shape
  | [] => .error (.unexpectedEnd {})
  | [t] => do
    let e ← ofAtom t
    .ok (.leaf e)
  | opening :: t :: ts =>
    let closing := (t :: ts).getLast (List.cons_ne_nil t ts)
    if opening.kind ≠ .opening ∨ closing.kind ≠ .closing then .error (.unexpected opening)
    else bracketed opening closing (t :: ts).dropLast

theorem flatten_runsOf {ts : List Token} {runs : List Run} (h : runsOf ts = .ok runs) :
    runs.flatten = ts := by
  unfold runsOf at h
  split at h
  · rename_i hs
    cases h
    exact flatten_splitRuns hs
  · cases h
  · cases h

theorem size_definition {opening closing : Token} {ts : List Token} {s : Shape}
    (h : definition opening closing ts = .ok s) : s.size ≤ ts.length := by
  cases ts with
  | nil => cases h
  | cons target rest =>
    simp only [definition] at h
    split at h
    · cases h
    · cases hr : runsOf rest with
      | error e => rw [hr] at h; cases h
      | ok runs =>
        rw [hr] at h
        have hl := congrArg List.length (flatten_runsOf hr)
        rcases runs with _ | ⟨body, _ | ⟨extra, others⟩⟩
        · cases h
        · cases h
          simp only [List.flatten_cons, List.flatten_nil, List.append_nil] at hl
          simp only [Shape.size, List.length_cons]
          omega
        · cases h

theorem size_bracketed {opening closing : Token} {ts : List Token} {s : Shape}
    (h : bracketed opening closing ts = .ok s) : s.size ≤ ts.length := by
  cases ts with
  | nil => cases h; simp [Shape.size]
  | cons head rest =>
    simp only [bracketed] at h
    split at h
    · cases h
    · split at h
      · exact Nat.le_succ_of_le (size_definition h)
      · cases hr : runsOf rest with
        | error e => rw [hr] at h; cases h
        | ok runs =>
          rw [hr] at h
          cases h
          simp [Shape.size, flatten_runsOf hr]

/-- The parts of a form are smaller than the form. -/
theorem size_shape {run : Run} {s : Shape} (h : shape run = .ok s) : s.size < run.length := by
  match run, h with
  | [t], h =>
    cases ha : ofAtom t with
    | error e => simp [shape, ha, bind, Except.bind] at h
    | ok e =>
      simp only [shape, ha, bind, Except.bind] at h
      cases h
      simp [Shape.size]
  | opening :: t :: ts, h =>
    simp only [shape] at h
    split at h
    · cases h
    · have := size_bracketed h
      simp only [List.length_dropLast, List.length_cons] at this ⊢
      omega

/-- The tree of one form. Of several parts that cannot be read the first decides. -/
def ofRun (run : Run) : Except ParseError Expr :=
  match _h : shape run with
  | .error e => .error e
  | .ok (.leaf e) => .ok e
  | .ok (.define name body pos) => do
    let e ← ofRun body
    .ok (.define name e pos)
  | .ok (.call name args pos) => do
    let es ← args.attach.mapM fun arg => ofRun arg.1
    .ok (.call name es pos)
termination_by run.length
decreasing_by
  · exact size_shape _h
  · exact Nat.lt_of_le_of_lt (List.sublist_flatten_of_mem arg.2).length_le (size_shape _h)

/-- The trees of forms side by side. -/
def ofRuns (runs : List Run) : Except ParseError (List Expr) :=
  runs.mapM ofRun

/-- One level of reading, by the shape of the run. -/
theorem ofRun_eq (run : Run) :
    ofRun run = (shape run).bind fun
      | .leaf e => .ok e
      | .define name body pos => (ofRun body).map fun e => .define name e pos
      | .call name args pos => (ofRuns args).map fun es => .call name es pos := by
  rw [ofRun]
  split
  · rename_i h; rw [h]; rfl
  · rename_i h; rw [h]; rfl
  · rename_i body pos h
    rw [h]
    simp only [Except.bind]
    cases ofRun body <;> rfl
  · rename_i args pos h
    have hm : (args.attach.mapM fun arg => ofRun arg.1) = ofRuns args := by
      change args.attach.mapM (ofRun ∘ Subtype.val) = args.mapM ofRun
      rw [← List.mapM_map, List.attach_map_subtype_val]
    rw [h, hm]
    simp only [Except.bind]
    cases ofRuns args <;> rfl

@[simp] theorem ofRuns_nil : ofRuns [] = .ok [] := rfl

@[simp] theorem ofRuns_cons (run : Run) (runs : List Run) :
    ofRuns (run :: runs) = (ofRun run).bind fun e => (ofRuns runs).map (e :: ·) := by
  unfold ofRuns
  rw [List.mapM_cons]
  cases ofRun run with
  | error e => rfl
  | ok e => cases List.mapM ofRun runs <;> rfl

/-- The trees of a token list, after which the source ended or reported a lexical error. -/
def ofTokens (fault : Option Fault) : List Token → Except ParseError (List Expr)
  | [] =>
    match fault with
    | none => .ok []
    | some cause => .error (.fault cause)
  | t :: rest =>
    match t.kind with
    | .blank => ofTokens fault rest
    | .closing => .error (.unexpected t)
    | .opening =>
      match _h : readRun 0 rest with
      | some (run, after) => do
        let e ← ofRun (t :: run)
        let es ← ofTokens fault after
        .ok (e :: es)
      | none =>
        match fault with
        | none => .error (.unexpectedEnd ((t :: rest).getLast (List.cons_ne_nil t rest)).pos)
        | some cause => .error (.fault cause)
    | _ => do
      let e ← ofRun [t]
      let es ← ofTokens fault rest
      .ok (e :: es)
termination_by ts => ts.length
decreasing_by
  · simp
  · exact Nat.lt_succ_of_lt (length_readRun _h)
  · simp

end Expr

/-- The trees of a source. -/
def parse (source : Bytes) : Except ParseError (List Expr) :=
  let (tokens, fault) := tokenize source
  Expr.ofTokens (fault.map .lexical) tokens

end MiniScheme
