import MiniScheme.Proofs.Expr.Verdict
import MiniScheme.Proofs.Token.Line

/-! Relocation. The parser inspects kinds and literals only and copies positions, so relocated
tokens have relocated trees and errors. -/
namespace MiniScheme

def Fault.relocate (f : Position → Position) : Fault → Fault
  | lexical e => lexical (e.relocate f)
  | host text => host text

def ParseError.relocate (f : Position → Position) : ParseError → ParseError
  | fault cause => fault (cause.relocate f)
  | unexpectedEnd pos => unexpectedEnd (f pos)
  | unexpectedToken pos text => unexpectedToken (f pos) text

namespace Expr

mutual

def relocate (f : Position → Position) : Expr → Expr
  | empty pos => empty (f pos)
  | static value pos => static value (f pos)
  | reference name pos => reference name (f pos)
  | define name body pos => define name (body.relocate f) (f pos)
  | call name args pos => call name (relocateAll f args) (f pos)
  | foreign typeName pos => foreign typeName (f pos)
  | missing => missing

def relocateAll (f : Position → Position) : List Expr → List Expr
  | [] => []
  | e :: es => e.relocate f :: relocateAll f es

end

def Shape.relocate (f : Position → Position) : Shape → Shape
  | leaf e => leaf (e.relocate f)
  | define name body pos => define name (body.map (.relocate f)) (f pos)
  | call name args pos => call name (args.map (List.map (.relocate f))) (f pos)

/-- A parse result at other positions, given how a tree is relocated. -/
def relocated {α : Type} (f : Position → Position) (move : α → α) :
    Except ParseError α → Except ParseError α
  | .ok a => .ok (move a)
  | .error e => .error (e.relocate f)

section

variable (f : Position → Position)

theorem closeRun_relocate (depth : Int) (ts : List Token) :
    closeRun depth (ts.map (.relocate f)) =
      (closeRun depth ts).map fun p => (p.1.map (.relocate f), p.2.map (.relocate f)) := by
  induction ts generalizing depth with
  | nil => rfl
  | cons t rest ih =>
    simp only [List.map_cons, closeRun, Token.kind_relocate]
    split
    · simp [ih, Function.comp_def]
    · split <;> simp [ih, Function.comp_def]
    · simp [ih, Function.comp_def]

theorem readRun_relocate (depth : Nat) (ts : List Token) :
    readRun depth (ts.map (.relocate f)) =
      (readRun depth ts).map fun p => (p.1.map (.relocate f), p.2.map (.relocate f)) := by
  induction ts generalizing depth with
  | nil => rfl
  | cons t rest ih =>
    simp only [List.map_cons, readRun, Token.kind_relocate]
    split <;> simp [ih, Function.comp_def]

theorem runsOf_relocate {ts : List Token} {runs : List Run} (h : runsOf ts = .ok runs) :
    runsOf (ts.map (.relocate f)) = .ok (runs.map (List.map (.relocate f))) := by
  rw [runsOf_eq_ok_iff] at h ⊢
  fun_induction splitRuns ts generalizing runs with
  | case1 => cases h; exact splitRuns_nil
  | case2 => cases h
  | case3 t rest ht run after hr ih =>
    cases hs : splitRuns after with
    | error e => rw [hs] at h; cases h
    | ok tail =>
      rw [hs] at h
      cases h
      have hclose : closeRun 0 (t.relocate f :: rest.map (.relocate f)) =
          some (run.map (.relocate f), after.map (.relocate f)) := by
        rw [← List.map_cons, closeRun_relocate, hr]
        rfl
      rw [List.map_cons, splitRuns_opening (t := t.relocate f) ht hclose, ih hs]
      rfl
  | case4 => cases h
  | case5 t rest ho hc ih =>
    cases hs : splitRuns rest with
    | error e => rw [hs] at h; cases h
    | ok tail =>
      rw [hs] at h
      cases h
      rw [List.map_cons, splitRuns_atom (t := t.relocate f) ho hc, ih hs]
      rfl

theorem ofAtom_relocate (t : Token) :
    ofAtom (t.relocate f) = relocated f (Expr.relocate f) (ofAtom t) := by
  simp only [ofAtom, Token.kind_relocate]
  split <;> rfl

theorem definition_relocate (o c : Token) {ts : List Token} (h : Balanced ts) :
    definition (o.relocate f) (c.relocate f) (ts.map (.relocate f)) =
      relocated f (Shape.relocate f) (definition o c ts) := by
  cases ts with
  | nil => rfl
  | cons target rest =>
    simp only [List.map_cons, definition]
    by_cases ht : target.kind = .identifier
    · have ht' : (target.relocate f).kind = .identifier := ht
      obtain ⟨runs, hr, hruns⟩ := runsOf_of_balanced (h.tail (by simp [ht]))
      rw [if_neg (not_not_intro ht'), if_neg (not_not_intro ht), hr, runsOf_relocate f hr]
      rcases runs with _ | ⟨first, _ | ⟨extra, others⟩⟩
      · rfl
      · rfl
      · obtain ⟨t, ts, rfl⟩ := List.exists_cons_of_ne_nil (hruns extra (by simp)).1.ne_nil
        rfl
    · have ht' : (target.relocate f).kind ≠ .identifier := ht
      rw [if_pos ht', if_pos ht]
      rfl

theorem bracketed_relocate (o c : Token) {inner : List Token} (h : Balanced inner) :
    bracketed (o.relocate f) (c.relocate f) (inner.map (.relocate f)) =
      relocated f (Shape.relocate f) (bracketed o c inner) := by
  cases inner with
  | nil => rfl
  | cons head rest =>
    simp only [List.map_cons, bracketed]
    by_cases hh : head.kind = .identifier
    · have hh' : (head.relocate f).kind = .identifier := hh
      have hrest := h.tail (by simp [hh])
      rw [if_neg (not_not_intro hh'), if_neg (not_not_intro hh)]
      by_cases hd : head.literal = ascii "define"
      · have hd' : (head.relocate f).literal = ascii "define" := hd
        rw [if_pos hd', if_pos hd]
        exact definition_relocate f o c hrest
      · have hd' : (head.relocate f).literal ≠ ascii "define" := hd
        obtain ⟨runs, hr, -⟩ := runsOf_of_balanced hrest
        rw [if_neg hd', if_neg hd, hr, runsOf_relocate f hr]
        rfl
    · have hh' : (head.relocate f).kind ≠ .identifier := hh
      rw [if_pos hh', if_pos hh]
      rfl

theorem shape_relocate {run : Run} (h : IsRun run) :
    shape (run.map (.relocate f)) = relocated f (Shape.relocate f) (shape run) := by
  cases h with
  | @atom t ho hc =>
    simp only [List.map_cons, List.map_nil, shape, ofAtom_relocate]
    cases ofAtom t <;> rfl
  | @bracketed o c inner ho hc hi =>
    have hmap := shape_bracketed (o := o.relocate f) (c := c.relocate f) ho hc
      (inner.map (.relocate f))
    rw [shape_bracketed ho hc, ← bracketed_relocate f o c hi, ← hmap]
    simp

theorem ofRuns_relocate {runs : List Run}
    (h : ∀ run ∈ runs, ofRun (run.map (.relocate f)) = relocated f (Expr.relocate f) (ofRun run)) :
    ofRuns (runs.map (List.map (.relocate f))) = relocated f (relocateAll f) (ofRuns runs) := by
  induction runs with
  | nil => rfl
  | cons run runs ih =>
    obtain ⟨hrun, hruns⟩ := List.forall_mem_cons.1 h
    rw [List.map_cons, ofRuns_cons, ofRuns_cons, hrun, ih hruns]
    cases ofRun run with
    | error e => rfl
    | ok e => cases ofRuns runs <;> rfl

/-- Parsing a run commutes with relocation. -/
theorem ofRun_relocate {run : Run} (h : IsRun run) :
    ofRun (run.map (.relocate f)) = relocated f (Expr.relocate f) (ofRun run) := by
  induction hn : run.length using Nat.strongRecOn generalizing run with
  | ind n ih =>
    subst hn
    rw [ofRun_eq, shape_relocate f h, ofRun_eq]
    have hparts := parts_shape h
    cases hs : shape run with
    | error e => rfl
    | ok s =>
      have hsize := size_shape hs
      rw [hs] at hparts
      cases hparts with
      | ok hp =>
        cases s with
        | leaf e => rfl
        | define name body pos =>
          have hbody := ih _ hsize (hp body List.mem_cons_self).1 rfl
          simp only [relocated, Shape.relocate, Except.bind, hbody]
          cases ofRun body <;> rfl
        | call name args pos =>
          have hargs := ofRuns_relocate f fun arg hm =>
            ih _ (Nat.lt_of_le_of_lt (List.sublist_flatten_of_mem hm).length_le hsize)
              (hp arg hm).1 rfl
          simp only [relocated, Shape.relocate, Except.bind, hargs]
          cases ofRuns args <;> rfl

theorem ofTokens_relocate (fault : Option Fault) (ts : List Token) :
    ofTokens (fault.map (.relocate f)) (ts.map (.relocate f)) =
      relocated f (relocateAll f) (ofTokens fault ts) := by
  induction hn : ts.length using Nat.strongRecOn generalizing ts with
  | ind n ih =>
    subst hn
    have cons {run : Run} {after : List Token} (hr : IsRun run) (hl : after.length < ts.length) :
        ((ofRun (run.map (.relocate f))).bind fun e =>
            (ofTokens (fault.map (.relocate f)) (after.map (.relocate f))).map (e :: ·)) =
          relocated f (relocateAll f)
            ((ofRun run).bind fun e => (ofTokens fault after).map (e :: ·)) := by
      rw [ofRun_relocate f hr, ih _ hl after rfl]
      cases ofRun run with
      | error e => rfl
      | ok e => cases ofTokens fault after <;> rfl
    match ts with
    | [] => cases fault <;> simp [ofTokens, relocated, relocateAll, ParseError.relocate]
    | t :: rest =>
      rw [List.map_cons]
      have hlen : rest.length < (t :: rest).length := Nat.lt_succ_self _
      by_cases hb : t.kind = .blank
      · rw [ofTokens_blank (t := t.relocate f) _ hb, ofTokens_blank _ hb]
        exact ih _ hlen rest rfl
      by_cases hc : t.kind = .closing
      · rw [ofTokens_closing (t := t.relocate f) _ hc, ofTokens_closing _ hc]
        rfl
      by_cases ho : t.kind = .opening
      · have hread := readRun_relocate f 0 rest
        cases hr : readRun 0 rest with
        | none =>
          rw [hr] at hread
          rw [ofTokens_unclosed (t := t.relocate f) _ ho hread, ofTokens_unclosed _ ho hr]
          have hlast : ((t :: rest).map (.relocate f)).getLast (by simp) =
              ((t :: rest).getLast (List.cons_ne_nil t rest)).relocate f := List.getLast_map _
          cases fault with
          | none =>
            simp only [List.map_cons] at hlast
            simp only [Option.map_none, Option.elim_none, hlast]
            rfl
          | some cause => rfl
        | some p =>
          rw [hr] at hread
          rw [ofTokens_opening (t := t.relocate f) _ ho hread, ofTokens_opening _ ho hr]
          exact cons (isRun_of_readRun ho hr) (Nat.lt_succ_of_lt (length_readRun hr))
      · rw [ofTokens_atom (t := t.relocate f) _ hb ho hc, ofTokens_atom _ hb ho hc]
        exact cons (.atom ho hc) hlen

end

end Expr

end MiniScheme
