import MiniScheme.Proofs.Interpreter.Dump
import MiniScheme.Proofs.Token.Legible
import MiniScheme.Proofs.Value.Written

/-! Written atoms as sources. The empty list, booleans and numbers evaluate to themselves, and a
string does iff its quotation is a literal. -/
namespace MiniScheme

def Expr.literal? : Expr → Option Value
  | empty _ => some .null
  | static v _ => some v
  | reference .. | define .. | call .. | foreign .. | missing => none

/-- `c.Leaves v`: the code of the chunk yields the value and has no effect. -/
def Chunk.Leaves (c : Chunk) (v : Value) : Prop :=
  c.code = [.immediate v] ∨ c.code = [] ∧ v = .null

namespace Value

/-- `v.IsDenoted`: some source of one form denotes the value, without a call. -/
def IsDenoted : Value → Prop
  | null | boolean _ | number _ => True
  | string text => ∃ source, Token.Denotes source text
  | eof | symbol _ | char _ | bytes _ | pair .. | hollow | unknown _ => False

def isLegible : Value → Bool
  | string text => Text.isLegibleText text
  | _ => true

end Value

section

variable {v : Value} {n : UInt64} {ts : List Token} {source : Bytes} {e : Expr}

theorem tokenize_decimal (n : UInt64) :
    ∃ t, tokenize (Text.decimal n.toNat) = ([t], none) ∧ t.kind = .integer n := by
  obtain ⟨l, hspelling, hkind⟩ := Lexeme.exists_integer n
  refine ⟨l.token {}, ?_, hkind⟩
  rw [← hspelling, ← List.append_nil l.spelling]
  exact tokenize_lexeme l

/-- A legible value is written as the tokens of one tree, which denotes it. -/
theorem exists_tokenize_write (hv : v.IsDenoted) (hl : v.isLegible) :
    ∃ text ts e, v.write? = some text ∧ tokenize text = (ts, none) ∧ Expr.Form ts e ∧
      e.literal? = some v := by
  cases v with
  | null =>
    let brackets := Lexeme.opening.spelling ++ (Lexeme.closing.spelling ++ [])
    have hscans : Cursor.Scans {} brackets _ _ [] :=
      .token (fun _ _ => rfl) (.token (Lexeme.stopsAt_nil _) .done)
    exact ⟨brackets, _, _, rfl, tokenize_eq_iff.2 ⟨_, [], hscans, .finished⟩, .empty rfl rfl, rfl⟩
  | boolean b =>
    have hsource : Value.write? (.boolean b) = some ((Lexeme.boolean b).spelling ++ []) := by
      cases b <;> rfl
    exact ⟨_, _, _, hsource, tokenize_lexeme _, .boolean rfl, rfl⟩
  | number n =>
    obtain ⟨t, htokens, hkind⟩ := tokenize_decimal n
    exact ⟨_, _, _, rfl, htokens, .integer hkind, rfl⟩
  | string text =>
    obtain ⟨source, hsource⟩ := hv
    exact ⟨_, _, _, rfl, tokenize_quote_of_legible hsource hl, .string rfl, rfl⟩
  | eof | symbol | char | bytes | pair | hollow | unknown => exact hv.elim

theorem parse_of_form (h : tokenize source = (ts, none)) (he : Expr.Form ts e) :
    parse source = .ok [e] := by
  rw [parse_eq_ofTokens h]
  apply Expr.ofTokens_iff_forms.2
  rw [he.withoutBlanks_eq]
  exact he.single

theorem compile_literal (he : e.literal? = some v) :
    ∃ c : Chunk, compile [e] = .ok ⟨[some c], [0]⟩ ∧ c.Leaves v := by
  cases e with
  | empty pos =>
    cases he
    exact ⟨_, rfl, .inr ⟨rfl, rfl⟩⟩
  | static w pos =>
    cases he
    exact ⟨_, rfl, .inl rfl⟩
  | reference | define | call | foreign | missing => cases he

end

namespace Machine

variable {m : Machine} {natives : Registry} {v : Value} {c : Chunk}

/-- Without a limit, a literal chunk yields its value and has no effect. -/
theorem execute_literal (h0 : m.limit = 0) (hc : c.Leaves v) :
    ∃ after, m.execute natives (some c) = (after, .value v) ∧ after.globals = m.globals ∧
      after.console.out = m.console.out := by
  have hlimit : ¬(0 < (m.context natives).limit ∧ (m.context natives).limit < 1) := by
    have hcontext : (m.context natives).limit = 0 := h0
    omega
  unfold execute
  dsimp only
  rcases hc with hcode | ⟨hcode, rfl⟩
  · let loaded := ((m.start c).advance.traced (.immediate v)).push v
    have hfirst : (m.context natives).step (m.start c) = .next loaded := by
      unfold Context.step
      simp only [start, hcode]
      exact if_neg hlimit
    have hlast : (m.context natives).step loaded =
        .halt ⟨m.globals, loaded.console.logged (.popFrame c.id 1 0), [], [], 1, .value v⟩ := by
      unfold Context.step
      simp only [loaded, start, State.advance, State.traced, State.push, hcode]
      rfl
    rw [Context.run_of_next hfirst, Context.run_of_halt hlast]
    exact ⟨_, rfl, rfl, rfl⟩
  · have hlast : (m.context natives).step (m.start c) =
        .halt ⟨m.globals, (m.start c).console.logged (.popFrame c.id 1 0), [], [], 0,
          .value .null⟩ := by
      unfold Context.step
      simp only [start, hcode]
      rfl
    rw [Context.run_of_halt hlast]
    exact ⟨_, rfl, rfl, rfl⟩

theorem run_literal (h0 : m.limit = 0) (hc : c.Leaves v) :
    ∃ after, m.run natives (some ⟨[some c], [0]⟩) = (after, .value v) ∧
      after.globals = m.globals ∧ after.console.out = m.console.out := by
  obtain ⟨after, hafter, hglobals, hout⟩ :=
    @execute_literal (m.load (some ⟨[some c], [0]⟩)) natives v c h0 hc
  refine ⟨after, ?_, hglobals, hout⟩
  unfold run
  dsimp only
  rw [runEntries_of_value rfl hafter]
  rfl

end Machine

namespace Interpreter

variable {it : Interpreter} {natives : Registry} {v : Value}

theorem eval_literal {source : Bytes} {ts : List Token} {e : Expr} (h0 : it.machine.limit = 0)
    (hsource : tokenize source = (ts, none)) (hform : Expr.Form ts e) (he : e.literal? = some v)
    (hv : v.isSolid) :
    let r := it.eval natives source
    r.2 = .value v ∧ r.1.machine.globals = it.machine.globals ∧
      r.1.machine.console.out = it.machine.console.out := by
  obtain ⟨c, hcompile, hc⟩ := compile_literal he
  have hsolid : Program.isSolid ⟨[some c], [0]⟩ := by
    rcases hc with hcode | ⟨hcode, -⟩
    · simp [Program.isSolid, Chunk.isSolid, Op.isSolid, hcode, hv]
    · simp [Program.isSolid, Chunk.isSolid, hcode]
  obtain ⟨after, hrun, hglobals, hout⟩ := @Machine.run_literal it.machine natives v c h0 hc
  let noted := (it.note fun _ => it.printer.tokens ts).note fun _ => it.printer.exprs [e]
  obtain ⟨dump, hlisted⟩ := @exists_runListed noted natives _ hsolid
  have hmachine : noted.machine = it.machine := rfl
  have heval : it.eval natives source = noted.runListed natives ⟨[some c], [0]⟩ := by
    rw [eval_of_tokenize hsource, parse_of_form hsource hform]
    simp only [evalForms, hcompile]
    rfl
  rw [heval, hlisted, hmachine, hrun]
  exact ⟨rfl, hglobals, hout⟩

theorem eval_of_fault {source : Bytes} {e : LexError} (h : tokenize source = ([], some e)) :
    ∃ dump, it.eval natives source =
      (⟨it.machine, it.printer, dump⟩, .error .null (if it.dump.isSome then .lex e else
        .parse (.fault (.lexical e)))) := by
  obtain ⟨machine, printer, dump⟩ := it
  unfold eval
  rw [h]
  cases dump with
  | none =>
    simp only [Option.map_some, Expr.ofTokens_nil]
    exact ⟨_, rfl⟩
  | some text => exact ⟨_, rfl⟩

/-- Without an instruction limit, an atom that a source can denote is read back from its written
form if that is legible. The written form of a string with a character that is neither printable nor
a line feed, carriage return or tab is rejected by the lexer, at the letter of an escape that
literals lack. Bindings and output are unchanged in both cases. -/
theorem eval_write (it : Interpreter) (natives : Registry) (h0 : it.machine.limit = 0)
    {v : Value} (hv : v.IsDenoted) :
    ∃ text, v.write? = some text ∧
      let r := it.eval natives text
      r.1.machine.globals = it.machine.globals ∧
      r.1.machine.console.out = it.machine.console.out ∧
      (v.isLegible → ∃ w, r.2 = .value w ∧ w.equal v) ∧
      (v.isLegible = false → ∃ pos letter, (∀ e : Escape, e.letter ≠ letter) ∧
        r.2 = .error .null (if it.dump.isSome then .lex (.unexpectedChar pos letter)
          else .parse (.fault (.lexical (.unexpectedChar pos letter))))) := by
  have hplain : v.isPlain := by
    cases v with
    | null | boolean | number | string => rfl
    | eof | symbol | char | bytes | pair | hollow | unknown => exact hv.elim
  by_cases hl : v.isLegible = true
  · obtain ⟨text, ts, e, htext, htokens, hform, he⟩ := exists_tokenize_write hv hl
    obtain ⟨hvalue, hglobals, hout⟩ := @eval_literal it natives v text ts e h0 htokens hform he
      (Value.isSolid_of_isPlain hplain)
    refine ⟨text, htext, hglobals, hout, ?_, ?_⟩
    · intro _
      exact ⟨v, hvalue, Value.equal_self hplain⟩
    · intro hl'
      rw [hl] at hl'
      cases hl'
  · have hl' := Bool.eq_false_iff.2 hl
    cases v with
    | string text =>
      obtain ⟨source, hsource⟩ := hv
      obtain ⟨pos, letter, htokens, hletter⟩ := tokenize_quote_of_illegible hsource hl'
      obtain ⟨dump, heval⟩ := @eval_of_fault it natives _ _ htokens
      refine ⟨Text.quote text, rfl, ?_⟩
      rw [heval]
      exact ⟨rfl, rfl, fun h => absurd h hl, fun _ => ⟨pos, letter, hletter, rfl⟩⟩
    | null | eof | boolean | number | symbol | char | bytes | pair | hollow | unknown => cases hl'

/-- A raw line feed in a literal is written as an escape. -/
theorem eval_write_line_feed :
    let v : Value := .string ([0x22, 0x0A] ++ Text.encode 'é')
    let text := ascii "\"\\\"\\n" ++ Text.encode 'é' ++ ascii "\""
    let it : Interpreter := { machine := { maxFrames := 1 }, dump := some [] }
    it.machine.limit = 0 ∧ v.IsDenoted ∧ v.isLegible ∧ v.write? = some text ∧
      ∃ w, (it.eval .standard text).2 = .value w ∧ w.equal v := by
  intro v text it
  have hv : v.IsDenoted :=
    ⟨ascii "\"\\\"\n" ++ Text.encode 'é' ++ ascii "\"", {}, by decide +kernel⟩
  have hl : v.isLegible := by decide +kernel
  have htext : v.write? = some text := by decide +kernel
  obtain ⟨text', htext', -, -, hread, -⟩ := eval_write it .standard rfl hv
  rw [htext] at htext'
  cases htext'
  exact ⟨rfl, hv, hl, htext, hread hl⟩

/-- A bell may occur in a literal, but its written form does not lex. -/
theorem eval_write_bell :
    let v : Value := .string [0x07]
    let text := ascii "\"\\a\""
    v.IsDenoted ∧ v.write? = some text ∧
      (({} : Interpreter).eval .standard text).2 =
        .error .null (.parse (.fault (.lexical (.unexpectedChar ⟨2, 0, 2⟩ 'a')))) := by
  refine ⟨⟨[0x22, 0x07, 0x22], {}, ?_⟩, ?_, ?_⟩
  · decide +kernel
  · decide +kernel
  · decide +kernel

end Interpreter

end MiniScheme
