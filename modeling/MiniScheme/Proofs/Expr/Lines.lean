import MiniScheme.Proofs.Expr.Relocation
import MiniScheme.Proofs.Expr.Source

/-! Parsing line by line. An error is permanent, or another line can remove it; after a source that
parses, a further line is parsed as on its own. -/
namespace MiniScheme

variable {source : Bytes} {ts : List Token}

theorem parse_eq_ofTokens {fault : Option LexError} (h : tokenize source = (ts, fault)) :
    parse source = Expr.ofTokens (fault.map .lexical) ts := by
  simp only [parse, h]

/-- An error that more text could complete is removed by some further line or replaced by a
permanent one; every other error is preserved by all further lines. -/
theorem parse_append_line_of_error {e : ParseError} (h : parse source = .error e) :
    (e.isIncomplete = false → ∀ line, parse (source ++ 0x0A :: line) = .error e) ∧
      (e.isIncomplete = true → ∃ line, ∀ e', parse (source ++ 0x0A :: line) = .error e' →
        e'.isIncomplete = false) := by
  obtain ⟨⟨ts, fault⟩, htokens⟩ : ∃ r, tokenize source = r := ⟨_, rfl⟩
  rw [parse_eq_ofTokens htokens] at h
  rcases Expr.refused_or_open ts with ⟨t, hrefused⟩ | ⟨hfault, hopen⟩
  · have ht := hrefused (fault.map .lexical) ts [] rfl
    rw [List.append_nil, h] at ht
    cases ht
    refine ⟨?_, fun hincomplete => nomatch hincomplete⟩
    intro _ line
    obtain ⟨us, vs, fault', hus, hline⟩ := exists_tokenize_line htokens line
    rw [parse_eq_ofTokens hline]
    exact hrefused _ us vs hus
  have he (c : LexError) (hc : fault = some c) : e = .fault (.lexical c) := by
    subst hc
    have hts := hfault (.lexical c) ts rfl
    rw [Option.map_some, hts] at h
    cases h
    rfl
  constructor
  · intro hpermanent line
    cases fault with
    | none =>
      rw [hopen e h] at hpermanent
      cases hpermanent
    | some c =>
      have hc : c.isIncomplete = false := by
        rw [he c rfl] at hpermanent
        exact hpermanent
      rw [parse_eq_ofTokens (tokenize_line_of_permanent htokens hc line)]
      exact h
  · intro hincomplete
    have hc : ∀ c ∈ fault, c.isIncomplete = true := by
      intro c hc
      rw [he c hc] at hincomplete
      exact hincomplete
    obtain ⟨us, c, hus, hfinal, hline⟩ := exists_tokenize_spoiler htokens hc
    refine ⟨spoiler, ?_⟩
    intro e' he'
    rw [parse_eq_ofTokens hline, Option.map_some, hfault _ us hus] at he'
    cases he'
    exact hfinal

/-- An excess bracket is an error whatever becomes of the string after it; an incomplete escape need
not be one. -/
theorem parse_append_line_of_error_bracket_and_escape :
    let bracket := ascii "(f \")\")\n  ) \"x\\"
    let e : ParseError := .unexpectedToken ⟨10, 1, 2⟩ (ascii ")")
    let escape := ascii "(f 12 \"a\\"
    let e' : ParseError := .fault (.lexical (.unexpectedEnd ⟨9, 0, 9⟩))
    parse bracket = .error e ∧ e.isIncomplete = false ∧
      (∀ line, parse (bracket ++ 0x0A :: line) = .error e) ∧
      parse escape = .error e' ∧ e'.isIncomplete = true ∧
      ∃ line, ∀ e'', parse (escape ++ 0x0A :: line) = .error e'' → e''.isIncomplete = false := by
  intro bracket e escape e'
  have hbracket : parse bracket = .error e := by decide +kernel
  have hescape : parse escape = .error e' := by decide +kernel
  exact ⟨hbracket, rfl, (parse_append_line_of_error hbracket).1 rfl, hescape, rfl,
    (parse_append_line_of_error hescape).2 rfl⟩

theorem parse_append_line_eq {es : List Expr} (h : parse source = .ok es) (line : Bytes) :
    let move := Position.shift (source.length + 1) (source.count 0x0A + 1)
    parse (source ++ 0x0A :: line) =
      (Expr.relocated move (Expr.relocateAll move) (parse line)).map (es ++ ·) := by
  intro move
  obtain ⟨⟨ts, fault⟩, htokens⟩ : ∃ r, tokenize source = r := ⟨_, rfl⟩
  obtain ⟨⟨ls, fault'⟩, hlineTokens⟩ : ∃ r, tokenize line = r := ⟨_, rfl⟩
  rw [parse_eq_ofTokens htokens] at h
  cases fault with
  | some c => exact absurd h (Expr.ofTokens_fault_ne_ok _ _ _)
  | none =>
    obtain ⟨us, bs, vs, fault, hus, hbs, hall, hmoved⟩ := tokenize_append_line htokens line
    rw [Position.past_newline, Cursor.collect_shift hlineTokens] at hmoved
    obtain ⟨htail, hfault⟩ := Prod.mk.inj hmoved
    have hlexical : fault.map Fault.lexical = (fault'.map .lexical).map (.relocate move) := by
      rw [← hfault, Option.map_map, Option.map_map]
      rfl
    calc parse (source ++ 0x0A :: line)
        = Expr.ofTokens (fault.map .lexical) (us ++ vs) := parse_eq_ofTokens hall
      _ = (Expr.ofTokens (fault.map .lexical) vs).map (es ++ ·) :=
          Expr.ofTokens_append_of_ok h _ hus vs
      _ = (Expr.ofTokens (fault.map .lexical) (bs ++ vs)).map (es ++ ·) := by
          rw [Expr.ofTokens_blanks _ hbs]
      _ = (Expr.relocated move (Expr.relocateAll move) (parse line)).map (es ++ ·) := by
          rw [← htail, hlexical, Expr.ofTokens_relocate, parse_eq_ofTokens hlineTokens]

/-- After a source that parses, a line has its own trees or its own error, shifted by the bytes and
lines before it. -/
theorem parse_append_line {es : List Expr} (h : parse source = .ok es) (line : Bytes) :
    let move := Position.shift (source.length + 1) (source.count 0x0A + 1)
    (∀ fs, parse line = .ok fs →
        parse (source ++ 0x0A :: line) = .ok (es ++ Expr.relocateAll move fs)) ∧
      ∀ e, parse line = .error e → parse (source ++ 0x0A :: line) = .error (e.relocate move) := by
  intro move
  have hline := parse_append_line_eq h line
  constructor
  · intro fs hfs
    rw [hline, hfs]
    rfl
  · intro e he
    rw [hline, he]
    rfl

/-- Two lines that start with a blank or end in a lexical error, after a source that ends in a
blank. -/
theorem parse_append_line_call_and_hash :
    let source := ascii "(define x\n 1) y "
    let es : List Expr :=
      [.define (ascii "x") (.static (.number 1) ⟨11, 1, 1⟩) {}, .reference (ascii "y") ⟨14, 1, 4⟩]
    let call := ascii " (f\n \"\\n\")"
    let hash := ascii "(g\n #"
    parse source = .ok es ∧
      parse call =
        .ok [.call (ascii "f") [.static (.string [0x0A]) ⟨5, 1, 1⟩] ⟨1, 0, 1⟩] ∧
      parse (source ++ 0x0A :: call) =
        .ok (es ++ [.call (ascii "f") [.static (.string [0x0A]) ⟨22, 3, 1⟩] ⟨18, 2, 1⟩]) ∧
      parse hash = .error (.fault (.lexical (.unexpectedEnd ⟨5, 1, 2⟩))) ∧
      parse (source ++ 0x0A :: hash) =
        .error (.fault (.lexical (.unexpectedEnd ⟨22, 3, 2⟩))) := by
  intro source es call hash
  have hsource : parse source = .ok es := by decide +kernel
  have hcall : parse call =
      .ok [.call (ascii "f") [.static (.string [0x0A]) ⟨5, 1, 1⟩] ⟨1, 0, 1⟩] := by decide +kernel
  have hhash : parse hash = .error (.fault (.lexical (.unexpectedEnd ⟨5, 1, 2⟩))) := by
    decide +kernel
  have hcalled := (parse_append_line hsource call).1 _ hcall
  have hhashed := (parse_append_line hsource hash).2 _ hhash
  exact ⟨hsource, hcall, hcalled, hhash, hhashed⟩

end MiniScheme
