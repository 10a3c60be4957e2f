import MiniScheme.Proofs.Code.Listing
import MiniScheme.Proofs.Interpreter.Pieces
import MiniScheme.Proofs.Token.Places

/-! Evaluation with a dump. The dump affects neither the machine nor the outcome, except that a
source with a lexical error is rejected before it is parsed. -/
namespace MiniScheme

namespace Interpreter

variable {it : Interpreter} {natives : Registry} {p : Program} {source : Bytes}

theorem exists_runListed (hp : p.isSolid) :
    let r := it.machine.run natives (some p)
    ∃ dump, it.runListed natives p = (⟨r.1, it.printer, dump⟩, r.2.evaluated) := by
  obtain ⟨listing, hlisting, herror⟩ :=
    @Listing.exists_chunks? natives.signatures p.chunks hp p.entries true
  have hprogram : Listing.ofProgram? natives.signatures (some p) = some listing := hlisting
  unfold runListed
  split
  · rw [runProgram_eq]
    exact ⟨_, rfl⟩
  · simp only [hprogram, herror]
    rw [runProgram_eq]
    exact ⟨_, rfl⟩

theorem exists_evalForms {forms : List Expr} (h : parse source = .ok forms)
    (hp : compile forms = .ok p) :
    let r := it.machine.run natives (some p)
    ∃ dump, it.evalForms natives (.ok forms) = (⟨r.1, it.printer, dump⟩, r.2.evaluated) := by
  have hsolid := Expr.areSolid_of_areProper forms (areProper_of_parse h)
  have hlisted := @exists_runListed (it.note fun _ => it.printer.exprs forms) natives p
    (Program.isSolid_of_isVerified (isVerified_of_compile hp hsolid))
  simp only [evalForms, hp]
  exact hlisted

/-- A source that parses is evaluated as without a dump. -/
theorem exists_eval_of_parse {forms : List Expr} {ts : List Token}
    (hts : tokenize source = (ts, none)) (h : parse source = .ok forms)
    (hp : compile forms = .ok p) :
    let r := it.machine.run natives (some p)
    ∃ dump, it.eval natives source = (⟨r.1, it.printer, dump⟩, r.2.evaluated) := by
  rw [eval_of_tokenize hts, h]
  exact @exists_evalForms (it.note fun _ => it.printer.tokens ts) natives p source forms h hp

theorem exists_eval_of_parse_error {e : ParseError} {ts : List Token}
    (hts : tokenize source = (ts, none)) (h : parse source = .error e) :
    ∃ dump, it.eval natives source = (⟨it.machine, it.printer, dump⟩, .error .null (.parse e)) := by
  rw [eval_of_tokenize hts, h]
  exact ⟨_, rfl⟩

end Interpreter

/-- On a source with a lexical error the parser fails at an earlier token or reports that error. -/
theorem parse_of_fault {source : Bytes} {ts : List Token} {e : LexError}
    (h : tokenize source = (ts, some e)) :
    parse source = .error (.fault (.lexical e)) ∨
      ∃ t ∈ ts, parse source = .error (.unexpected t) := by
  rw [parse_eq_ofTokens h, Option.map_some]
  cases Expr.verdict ts with
  | complete es hes =>
    have hend := hes (some (.lexical e)) ts [] rfl
    rw [List.append_nil, Expr.ofTokens_nil] at hend
    exact .inl hend
  | refused t ht hrefused =>
    have hend := hrefused (some (.lexical e)) ts [] rfl
    rw [List.append_nil] at hend
    exact .inr ⟨t, (List.mem_filter.1 ht).1, hend⟩
  | unclosed hopen =>
    obtain ⟨pos, hpos⟩ := hopen (some (.lexical e)) ts rfl
    exact .inl hpos

namespace Interpreter

/-- With and without a dump, whatever its printer, a source without lexical errors gives the same
outcome and leaves the same machine. At a lexical error both fail before they run anything: with a
dump the error is the lexical one, and without it the parser reports either that error or a token
before it. -/
theorem eval_dump (machine : Machine) (printer : Printer) (dump : Bytes) (natives : Registry)
    (source : Bytes) :
    let dumped := (⟨machine, printer, some dump⟩ : Interpreter).eval natives source
    let plain := (⟨machine, printer, none⟩ : Interpreter).eval natives source
    match (tokenize source).2 with
    | none => dumped.1.machine = plain.1.machine ∧ dumped.2 = plain.2
    | some e =>
      dumped.1.machine = machine ∧ dumped.2 = .error .null (.lex e) ∧
      plain.1.machine = machine ∧
        (plain.2 = .error .null (.parse (.fault (.lexical e))) ∨
          ∃ pos text, plain.2 = .error .null (.parse (.unexpectedToken pos text)) ∧
            pos.offset < e.pos.offset) := by
  obtain ⟨⟨ts, fault⟩, htokens⟩ : ∃ r, tokenize source = r := ⟨_, rfl⟩
  intro dumped plain
  rw [htokens]
  cases fault with
  | none =>
    cases hparse : parse source with
    | error e =>
      obtain ⟨text, hdumped : dumped = _⟩ :=
        @exists_eval_of_parse_error ⟨machine, printer, some dump⟩ natives source e ts htokens hparse
      obtain ⟨text', hplain : plain = _⟩ :=
        @exists_eval_of_parse_error ⟨machine, printer, none⟩ natives source e ts htokens hparse
      rw [hdumped, hplain]
      exact ⟨rfl, rfl⟩
    | ok forms =>
      obtain ⟨p, hp⟩ := compile_of_areProper (areProper_of_parse hparse)
      have heval (it : Interpreter) := @exists_eval_of_parse it natives p source forms ts htokens
      obtain ⟨text, hdumped : dumped = _⟩ := heval ⟨machine, printer, some dump⟩ hparse hp
      obtain ⟨text', hplain : plain = _⟩ := heval ⟨machine, printer, none⟩ hparse hp
      rw [hdumped, hplain]
      exact ⟨rfl, rfl⟩
  | some e =>
    have hdumped : dumped = (⟨machine, printer, some dump⟩, .error .null (.lex e)) :=
      eval_of_tokenize htokens _ _
    have hplain : plain = evalForms natives ⟨machine, printer, none⟩ (parse source) :=
      eval_of_tokenize htokens _ _
    rw [hdumped, hplain]
    refine ⟨rfl, rfl, ?_⟩
    rcases parse_of_fault htokens with hparse | ⟨t, ht, hparse⟩
    · rw [hparse]
      exact ⟨rfl, .inl rfl⟩
    · rw [hparse]
      exact ⟨rfl, .inr ⟨t.pos, t.text, rfl, offset_lt_of_tokenize htokens t ht⟩⟩

/-- An excess bracket before an unclosed string: with a dump the string is reported. -/
example :
    let source := ascii ") \"x"
    (({ dump := some [] } : Interpreter).eval .standard source).2 =
        .error .null (.lex (.unexpectedEnd ⟨4, 0, 4⟩)) ∧
      (({} : Interpreter).eval .standard source).2 =
        .error .null (.parse (.unexpectedToken {} (ascii ")"))) := by
  decide +kernel

end Interpreter

end MiniScheme
