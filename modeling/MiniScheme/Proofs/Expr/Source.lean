import Mathlib.Data.List.Basic
import MiniScheme.Proofs.Expr.Grammar
import MiniScheme.Proofs.Machine.Verified
import MiniScheme.Proofs.Token.Lexer

/-! Trees of sources. They are complete, so they compile, and their code passes the verifier. -/
namespace MiniScheme

namespace Expr

mutual

/-- Nothing is missing or foreign, names are nonempty, and values are solid. -/
def isProper : Expr → Bool
  | empty _ => true
  | static v _ => v.isSolid
  | reference name _ => name ≠ []
  | define name body _ => name ≠ [] && body.isProper
  | call name args _ => name ≠ [] && areProper args
  | foreign .. | missing => false

def areProper : List Expr → Bool
  | [] => true
  | e :: es => e.isProper && areProper es

end

mutual

theorem isSolid_of_isProper (e : Expr) (h : e.isProper) : e.isSolid := by
  cases e with
  | empty | reference | foreign | missing => rfl
  | static v pos => exact h
  | define name body pos => exact isSolid_of_isProper body (Bool.and_eq_true_iff.1 h).2
  | call name args pos => exact areSolid_of_areProper args (Bool.and_eq_true_iff.1 h).2

theorem areSolid_of_areProper (es : List Expr) (h : areProper es) : areSolid es := by
  cases es with
  | nil => rfl
  | cons e es =>
    obtain ⟨he, hes⟩ := Bool.and_eq_true_iff.1 h
    exact Bool.and_eq_true_iff.2 ⟨isSolid_of_isProper e he, areSolid_of_areProper es hes⟩

end

theorem isMissing_of_isProper {e : Expr} (h : e.isProper) : e.isMissing = false := by
  cases e with
  | missing => cases h
  | empty | static | reference | define | call | foreign => rfl

mutual

/-- Proper trees have code. -/
theorem lower_of_isProper (id : Nat) (e : Expr) (h : e.isProper) :
    ∃ chunks, e.lower id = .ok chunks := by
  cases e with
  | empty pos => exact ⟨_, rfl⟩
  | static v pos => exact ⟨_, rfl⟩
  | reference name pos =>
    have hname : name ≠ [] := of_decide_eq_true h
    exact ⟨_, if_neg hname⟩
  | define name body pos =>
    obtain ⟨hname, hbody⟩ := Bool.and_eq_true_iff.1 h
    rw [lower, if_neg (of_decide_eq_true hname), isMissing_of_isProper hbody]
    refine exists_bind_eq_ok (lower_of_isProper (id + 1) body hbody) ?_
    intro chunks
    exact ⟨_, rfl⟩
  | call name args pos =>
    obtain ⟨hname, hargs⟩ := Bool.and_eq_true_iff.1 h
    rw [lower, if_neg (of_decide_eq_true hname)]
    refine exists_bind_eq_ok (lowerArgs_of_areProper name pos 0 (id + 1) args hargs) ?_
    rintro ⟨ids, chunks⟩
    exact ⟨_, rfl⟩
  | foreign typeName pos => cases h
  | missing => cases h

theorem lowerArgs_of_areProper (procedure : Bytes) (pos : Position) (index id : Nat)
    (args : List Expr) (h : areProper args) :
    ∃ r, lowerArgs procedure pos index id args = .ok r := by
  cases args with
  | nil => exact ⟨_, rfl⟩
  | cons arg args =>
    obtain ⟨harg, hargs⟩ := Bool.and_eq_true_iff.1 h
    rw [lowerArgs, isMissing_of_isProper harg]
    refine exists_bind_eq_ok (lower_of_isProper id arg harg) ?_
    intro chunks
    refine exists_bind_eq_ok (lowerArgs_of_areProper procedure pos _ _ args hargs) ?_
    rintro ⟨ids, rest⟩
    exact ⟨_, rfl⟩

end

theorem lowerForms_of_areProper (id : Nat) (forms : List Expr) (h : areProper forms) :
    ∃ r, lowerForms id forms = .ok r := by
  induction forms generalizing id with
  | nil => exact ⟨_, rfl⟩
  | cons form forms ih =>
    obtain ⟨hform, hforms⟩ := Bool.and_eq_true_iff.1 h
    refine exists_bind_eq_ok (lower_of_isProper id form hform) ?_
    intro chunks
    refine exists_bind_eq_ok (ih (id + chunks.length) hforms) ?_
    rintro ⟨ids, rest⟩
    exact ⟨_, rfl⟩

end Expr

theorem compile_of_areProper {forms : List Expr} (h : Expr.areProper forms) :
    ∃ p, compile forms = .ok p := by
  refine exists_bind_eq_ok (Expr.lowerForms_of_areProper 0 forms h) ?_
  rintro ⟨ids, chunks⟩
  exact ⟨_, rfl⟩

namespace Expr

mutual

/-- The trees of forms with nonempty names are proper. -/
theorem Form.isProper {ts : List Token} {e : Expr} (h : Form ts e)
    (hn : ∀ t ∈ ts, t.kind = .identifier → t.literal ≠ []) : e.isProper := by
  cases h with
  | boolean | integer | string | empty => rfl
  | identifier ht => exact decide_eq_true (hn _ List.mem_cons_self ht)
  | @define o h t c body e ho hh hd ht hb hc =>
    have hname : t.literal ≠ [] := hn t (by simp) ht
    have hbody : e.isProper := hb.isProper fun u hu => hn u (by simp [hu])
    exact Bool.and_eq_true_iff.2 ⟨decide_eq_true hname, hbody⟩
  | @call o h c args es ho hh hd ha hc =>
    have hname : h.literal ≠ [] := hn h (by simp) hh
    have hargs : areProper es := ha.areProper fun u hu => hn u (by simp [hu])
    exact Bool.and_eq_true_iff.2 ⟨decide_eq_true hname, hargs⟩

theorem Forms.areProper {ts : List Token} {es : List Expr} (h : Forms ts es)
    (hn : ∀ t ∈ ts, t.kind = .identifier → t.literal ≠ []) : areProper es := by
  cases h with
  | nil => rfl
  | cons hf hs =>
    have he := hf.isProper fun t ht => hn t (List.mem_append_left _ ht)
    have hes := hs.areProper fun t ht => hn t (List.mem_append_right _ ht)
    exact Bool.and_eq_true_iff.2 ⟨he, hes⟩

end

/-- Nothing parses that ends in a lexical error. -/
theorem ofTokens_fault_ne_ok (cause : Fault) (ts : List Token) (es : List Expr) :
    ofTokens (some cause) ts ≠ .ok es := by
  induction hn : ts.length using Nat.strongRecOn generalizing ts es with
  | ind n ih =>
    subst hn
    match ts with
    | [] => simp [ofTokens]
    | t :: rest =>
      by_cases hb : t.kind = .blank
      · rw [ofTokens_blank _ hb]
        exact ih _ (Nat.lt_succ_self _) rest es rfl
      by_cases hc : t.kind = .closing
      · rw [ofTokens_closing _ hc]
        simp
      by_cases ho : t.kind = .opening
      · cases hr : readRun 0 rest with
        | none =>
          rw [ofTokens_unclosed _ ho hr]
          simp
        | some p =>
          rw [ofTokens_opening _ ho hr, Ne, bind_map_eq_ok_iff]
          rintro ⟨e, es', -, -, hes⟩
          exact ih _ (Nat.lt_succ_of_lt (length_readRun hr)) p.2 es' rfl hes
      · rw [ofTokens_atom _ hb ho hc, Ne, bind_map_eq_ok_iff]
        rintro ⟨e, es', -, -, hes⟩
        exact ih _ (Nat.lt_succ_self _) rest es' rfl hes

end Expr

theorem areProper_of_parse {source : Bytes} {forms : List Expr} (h : parse source = .ok forms) :
    Expr.areProper forms := by
  change Expr.ofTokens ((tokenize source).2.map .lexical) (tokenize source).1 = .ok forms at h
  cases hfault : (tokenize source).2 with
  | some e =>
    rw [hfault] at h
    exact absurd h (Expr.ofTokens_fault_ne_ok _ _ _)
  | none =>
    rw [hfault] at h
    refine (Expr.ofTokens_iff_forms.1 h).areProper ?_
    intro t ht
    exact literal_ne_nil_of_mem_tokenize (List.mem_filter.1 ht).1

namespace Machine

/-- A source that parses compiles, and no machine goes wrong on it. A run ends in a value, for a
cause that lies in the program or its limits, or with the error of a native procedure that the run
calls. A frame at the end of its code has no pending name and at most the value that it returns. The
standard procedures satisfy the hypotheses. -/
theorem run_parse {source : Bytes} {forms : List Expr} (h : parse source = .ok forms) :
    (∃ p, compile forms = .ok p ∧ ∀ (m : Machine) (natives : Registry), m.globals.isSolid →
      (∀ n ∈ natives.callable, n.KeepsSolid ∧ n.Replies ∧ n.ReportsOwn) →
        (m.run natives (some p)).2.IsSafe (Calls natives p (m.load (some p)) p.entries) ∧
        (m.run natives (some p)).2 ≠ .crash ∧
        (∀ v e, (m.run natives (some p)).2 = .error v e → e.cause.isInternal = false) ∧
        ∀ s, Visits natives p (m.load (some p)) p.entries s →
          s.frame.chunk.code.length ≤ s.frame.ip →
            s.frame.pending = none ∧ s.height - 1 = 0) ∧
      ∀ n ∈ Registry.standard.callable, n.KeepsSolid ∧ n.Replies ∧ n.ReportsOwn := by
  have hproper := areProper_of_parse h
  obtain ⟨p, hp⟩ := compile_of_areProper hproper
  have hverified := isVerified_of_compile hp (Expr.areSolid_of_areProper forms hproper)
  constructor
  · refine ⟨p, hp, ?_⟩
    intro m natives hg hn
    obtain ⟨hsafe, hvisits⟩ := run_isSafe hverified hg (fun n hmem => (hn n hmem).1)
      (fun n hmem => (hn n hmem).2.1)
    refine ⟨hsafe, ?_, ?_, ?_⟩
    · intro hcrash
      rw [hcrash] at hsafe
      cases hsafe
    · intro v e he
      rw [he] at hsafe
      exact hsafe.isInternal_eq_false fun n _ _ hcalls => (hn n hcalls.mem).2.2
    · intro s hs hend
      obtain ⟨hname, hheight⟩ := (hvisits s hs).finished hend
      exact ⟨hname, by omega⟩
  · intro n hmem
    have hn := Registry.plain_standard n hmem
    exact ⟨hn.keepsSolid, hn.replies, hn.reportsOwn⟩

/-- The last form ends the run with the error of a native procedure. -/
theorem run_parse_refused_call :
    let x := ascii "x"
    let y := ascii "y"
    let source := ascii "(define x (car y))\n(display x) (car x)"
    let forms : List Expr :=
      [.define x (.call (ascii "car") [.reference y ⟨15, 0, 15⟩] ⟨10, 0, 10⟩) {},
        .call (ascii "display") [.reference x ⟨28, 1, 9⟩] ⟨19, 1, 0⟩,
        .call (ascii "car") [.reference x ⟨36, 1, 17⟩] ⟨31, 1, 12⟩]
    let pair := Value.pair (.number 7) .null
    let m : Machine := { globals := .ofList [(y, pair)], maxFrames := 3, limit := 9 }
    let e : RunError :=
      ⟨.typeMismatch (ascii "car expects a pair, got number"), ⟨5, 1, 2⟩, [⟨5, 1, 2⟩]⟩
    parse source = .ok forms ∧ ∃ p, compile forms = .ok p ∧
      let r := m.run .standard (some p)
      r.2 = .error .null e ∧ e.ComesFrom (Calls .standard p (m.load (some p)) p.entries) ∧
        r.1.globals.entries = [(x, .number 7), (y, pair)] ∧ r.1.console.out = #[ascii "7"] := by
  intro x y source forms pair m e
  have hforms : parse source = .ok forms := by decide +kernel
  obtain ⟨⟨p, hp, hrun⟩, hstandard⟩ := run_parse hforms
  obtain ⟨hsafe, -⟩ := hrun m .standard rfl hstandard
  have he : (m.run .standard (some p)).2 = .error .null e := by
    cases hp
    decide +kernel
  rw [he] at hsafe
  refine ⟨hforms, p, hp, he, ?_, ?_, ?_⟩
  · cases hsafe with
    | ordinary h => cases h
    | native h => exact h
  · cases hp
    decide +kernel
  · cases hp
    decide +kernel

end Machine

end MiniScheme
