import MiniScheme.Proofs.Code.Lines
import MiniScheme.Proofs.Interpreter.Dump

/-! Layout of sources. Blanks between tokens, and the positions that depend on them, affect only the
positions in errors. -/
namespace MiniScheme

def Position.forget (_ : Position) : Position := {}

/-- The outcome without source positions. -/
def EvalOutcome.unplaced : EvalOutcome → EvalOutcome
  | error v (.parse e) => error v (.parse (e.relocate .forget))
  | error v (.run e) => error v (.run (e.viewed .unlined))
  | outcome => outcome

theorem Outcome.unplaced_evaluated (o : Outcome) :
    o.evaluated.unplaced = (o.viewed .unlined).evaluated := by
  cases o <;> rfl

namespace Expr

variable {ts us : List Token}

/-- Blanks affect only the position of a premature end. -/
theorem ofTokens_forget_of_withoutBlanks (h : withoutBlanks us = withoutBlanks ts) :
    relocated .forget (relocateAll .forget) (ofTokens none us) =
      relocated .forget (relocateAll .forget) (ofTokens none ts) := by
  cases verdict ts with
  | complete es hes =>
    have hts := hes none ts [] rfl
    have hus := hes none us [] h
    rw [List.append_nil] at hts hus
    rw [hts, hus]
  | refused t ht hrefused =>
    have hts := hrefused none ts [] rfl
    have hus := hrefused none us [] h
    rw [List.append_nil] at hts hus
    rw [hts, hus]
  | unclosed hopen =>
    obtain ⟨pos, hts⟩ := hopen none ts rfl
    obtain ⟨pos', hus⟩ := hopen none us h
    rw [hts, hus]
    rfl

/-- Tokens with the same content, up to blanks, parse to the same trees, up to positions. -/
theorem ofTokens_forget_of_said
    (h : (withoutBlanks us).map Token.said = (withoutBlanks ts).map Token.said) :
    relocated .forget (relocateAll .forget) (ofTokens none us) =
      relocated .forget (relocateAll .forget) (ofTokens none ts) := by
  have hself (vs : List Token) : withoutBlanks (withoutBlanks vs) = withoutBlanks vs := by
    simp [withoutBlanks]
  have hplain (vs : List Token) : relocated .forget (relocateAll .forget) (ofTokens none vs) =
      ofTokens none (((withoutBlanks vs).map Token.said).map fun said => ⟨said.1, said.2, {}⟩) := by
    have hmoved := ofTokens_relocate .forget none (withoutBlanks vs)
    rw [← ofTokens_forget_of_withoutBlanks (hself vs), ← hmoved, List.map_map]
    rfl
  rw [hplain, hplain, h]

end Expr

/-- Programs of trees that differ only in positions run alike. -/
theorem Machine.run_of_relocateAll {f : Position → Position} {es fs : List Expr} {p q : Program}
    (h : Expr.relocateAll f fs = Expr.relocateAll f es) (hp : compile es = .ok p)
    (hq : compile fs = .ok q) (hes : Expr.areSolid es) {natives : Registry}
    (hi : ∀ n ∈ natives.callable, n.IgnoresProgram)
    (hu : ∀ n ∈ natives.callable, n.Unobservant) (m : Machine) :
    let r := m.run natives (some p)
    let s := m.run natives (some q)
    r.1.Resembles s.1 ∧ s.2.viewed .unlined = r.2.viewed .unlined := by
  have hn (n : Native) (hmem : n ∈ natives.callable) : n.Impartial p q .unlined .unlined := by
    refine ⟨?_, fun _ _ _ _ => rfl, hu n hmem⟩
    intro m args
    exact (hi n hmem m (some q) args).trans (hi n hmem m (some p) args).symm
  have hrun := ((Resembles.refl m).load (some p) (some q)).runEntries_zero hn
    (corresponds_of_relocateAll h hp hq hes) rfl rfl .null (exists_chunk_of_mem_entries hp)
  have hentries := entries_eq_of_relocateAll h hp hq
  unfold run
  dsimp only
  rw [hentries]
  exact hrun

namespace Interpreter

open MiniScheme.Expr (relocateAll relocated withoutBlanks)

/-- Two sources without lexical errors that have the same tokens, up to blanks and positions, parse
to the same trees or fail with the same error, up to positions. Evaluated on the same interpreter
they leave the same bindings and output, and the same outcome up to the source positions in an
error. -/
theorem eval_spacing (it : Interpreter) {natives : Registry}
    (hi : ∀ n ∈ natives.callable, n.IgnoresProgram) (hu : ∀ n ∈ natives.callable, n.Unobservant)
    {a b : Bytes} {ts us : List Token} (ha : tokenize a = (ts, none)) (hb : tokenize b = (us, none))
    (h : (withoutBlanks us).map Token.said = (withoutBlanks ts).map Token.said) :
    relocated .forget (relocateAll .forget) (parse b) =
      relocated .forget (relocateAll .forget) (parse a) ∧
    let r := it.eval natives a
    let s := it.eval natives b
    r.1.machine.Resembles s.1.machine ∧ s.2.unplaced = r.2.unplaced := by
  have hread : relocated .forget (relocateAll .forget) (parse b) =
      relocated .forget (relocateAll .forget) (parse a) := by
    rw [parse_eq_ofTokens ha, parse_eq_ofTokens hb]
    exact Expr.ofTokens_forget_of_said h
  refine ⟨hread, ?_⟩
  cases hes : parse a with
  | error e =>
    cases hfs : parse b with
    | ok fs =>
      rw [hes, hfs] at hread
      cases hread
    | error e' =>
      have herror : e'.relocate .forget = e.relocate .forget := by
        rw [hes, hfs] at hread
        exact Except.error.inj hread
      obtain ⟨dump, hr⟩ := @exists_eval_of_parse_error it natives a e ts ha hes
      obtain ⟨dump', hs⟩ := @exists_eval_of_parse_error it natives b e' us hb hfs
      rw [hr, hs]
      refine ⟨.refl _, ?_⟩
      simp only [EvalOutcome.unplaced, herror]
  | ok es =>
    cases hfs : parse b with
    | error e' =>
      rw [hes, hfs] at hread
      cases hread
    | ok fs =>
      have htrees : relocateAll .forget fs = relocateAll .forget es := by
        rw [hes, hfs] at hread
        exact Except.ok.inj hread
      have hproper := areProper_of_parse hes
      obtain ⟨p, hp⟩ := compile_of_areProper hproper
      obtain ⟨q, hq⟩ := compile_of_areProper (areProper_of_parse hfs)
      obtain ⟨dump, hr⟩ := @exists_eval_of_parse it natives p a es ts ha hes hp
      obtain ⟨dump', hs⟩ := @exists_eval_of_parse it natives q b fs us hb hfs hq
      obtain ⟨hmachine, houtcome⟩ := Machine.run_of_relocateAll htrees hp hq
        (Expr.areSolid_of_areProper es hproper) hi hu it.machine
      rw [hr, hs]
      refine ⟨hmachine, ?_⟩
      simp only [Outcome.unplaced_evaluated, houtcome]

/-- Adjacent tokens in one source, on separate lines in the other. The errors differ in their lines
only. -/
theorem eval_spacing_lines :
    let a := ascii "(define x\"a b\")(display x)(car 7)"
    let b := ascii "\n( define x \"a b\"\n)(display\tx)\r\n(car\n7)  "
    let it : Interpreter := { machine := { maxFrames := 3, limit := 6 }, dump := some [] }
    let e (line : Int) : RunError :=
      ⟨.typeMismatch (ascii "car expects a pair, got number"), ⟨4, line, 2⟩, [⟨4, line, 2⟩]⟩
    ∃ ts us, tokenize a = (ts, none) ∧ tokenize b = (us, none) ∧
      (withoutBlanks us).map Token.said = (withoutBlanks ts).map Token.said ∧
      relocated .forget (relocateAll .forget) (parse b) =
        relocated .forget (relocateAll .forget) (parse a) ∧
      let r := it.eval .standard a
      let s := it.eval .standard b
      r.2 = .error .null (.run (e 0)) ∧ s.2 = .error .null (.run (e 3)) ∧
        s.2.unplaced = r.2.unplaced ∧ r.1.machine.Resembles s.1.machine ∧
        s.1.machine.globals.entries = [(ascii "x", .string (ascii "a b"))] ∧
        s.1.machine.console.out = #[ascii "a b"] := by
  intro a b it e
  have htokens : ∃ ts us, tokenize a = (ts, none) ∧ tokenize b = (us, none) ∧
      (withoutBlanks us).map Token.said = (withoutBlanks ts).map Token.said :=
    ⟨(tokenize a).1, (tokenize b).1, by decide +kernel, by decide +kernel, by decide +kernel⟩
  obtain ⟨ts, us, ha, hb, hsaid⟩ := htokens
  have hi : ∀ n ∈ Registry.standard.callable, n.IgnoresProgram :=
    fun n hmem => (Registry.aloof_standard n hmem).program
  obtain ⟨hparse, hmachine, houtcome⟩ :=
    eval_spacing it hi Registry.unobservant_standard ha hb hsaid
  exact ⟨ts, us, ha, hb, hsaid, hparse, by decide +kernel, by decide +kernel, houtcome, hmachine,
    by decide +kernel, by decide +kernel⟩

end Interpreter

end MiniScheme
