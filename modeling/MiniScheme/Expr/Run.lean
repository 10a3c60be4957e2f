import MiniScheme.Token

/-! Bracketed runs of tokens. A run goes from an opening bracket to the closing one that matches
it. -/
namespace MiniScheme.Expr

/-- The tokens of one form: an atom alone, or a bracketed run. -/
abbrev Run := List Token

/-- Reads on until the bracket that closes the run, `depth` brackets being open inside it. Blanks
are dropped. The result is the run up to that bracket and what follows it. -/
def readRun : (depth : Nat) → List Token → Option (Run × List Token)
  | _, [] => none
  | depth, t :: rest =>
    match t.kind, depth with
    | .blank, _ => readRun depth rest
    | .opening, _ => (readRun (depth + 1) rest).map fun (run, after) => (t :: run, after)
    | .closing, 0 => some ([t], rest)
    | .closing, depth + 1 => (readRun depth rest).map fun (run, after) => (t :: run, after)
    | _, _ => (readRun depth rest).map fun (run, after) => (t :: run, after)

theorem length_readRun {depth : Nat} {ts run after : List Token}
    (h : readRun depth ts = some (run, after)) : after.length < ts.length := by
  induction ts generalizing depth run with
  | nil => simp [readRun] at h
  | cons t rest ih =>
    have mapped {d : Nat}
        (h : (readRun d rest).map (fun p => (t :: p.1, p.2)) = some (run, after)) :
        after.length < (t :: rest).length := by
      obtain ⟨⟨run', after'⟩, hr, he⟩ := Option.map_eq_some_iff.1 h
      obtain ⟨-, rfl⟩ := Prod.mk.inj he
      exact Nat.lt_succ_of_lt (ih hr)
    unfold readRun at h
    split at h
    · exact Nat.lt_succ_of_lt (ih h)
    · exact mapped h
    · obtain ⟨-, rfl⟩ := Prod.mk.inj (Option.some.inj h)
      exact Nat.lt_succ_self _
    · exact mapped h
    · exact mapped h

/-- Splits tokens after the first closing bracket that brings the number of open brackets down to
zero, starting from `depth`. -/
def closeRun (depth : Int) : List Token → Option (Run × List Token)
  | [] => none
  | t :: rest =>
    match t.kind with
    | .opening => (closeRun (depth + 1) rest).map fun (run, after) => (t :: run, after)
    | .closing =>
      let depth := depth - 1
      if depth = 0 then some ([t], rest)
      else (closeRun depth rest).map fun (run, after) => (t :: run, after)
    | _ => (closeRun depth rest).map fun (run, after) => (t :: run, after)

theorem append_closeRun {depth : Int} {ts run after : List Token}
    (h : closeRun depth ts = some (run, after)) : run ++ after = ts := by
  induction ts generalizing depth run with
  | nil => cases h
  | cons t rest ih =>
    have mapped {d : Int}
        (h : (closeRun d rest).map (fun p => (t :: p.1, p.2)) = some (run, after)) :
        run ++ after = t :: rest := by
      obtain ⟨⟨run', after'⟩, hr, he⟩ := Option.map_eq_some_iff.1 h
      obtain ⟨rfl, rfl⟩ := Prod.mk.inj he
      simp [ih hr]
    unfold closeRun at h
    split at h
    · exact mapped h
    · dsimp only at h
      split at h
      · obtain ⟨rfl, rfl⟩ := Prod.mk.inj (Option.some.inj h)
        rfl
      · exact mapped h
    · exact mapped h

theorem length_closeRun {depth : Int} {ts run after : List Token}
    (h : closeRun depth ts = some (run, after)) : after.length < ts.length := by
  have happend := append_closeRun h
  have hrun : run ≠ [] := by
    rintro rfl
    cases ts with
    | nil => cases h
    | cons t rest =>
      unfold closeRun at h
      split at h
      · simp at h
      · dsimp only at h
        split at h <;> simp at h
      · simp at h
  have hpos := List.length_pos_iff.2 hrun
  rw [← happend, List.length_append]
  omega

/-- Why tokens do not split into forms. -/
inductive Unbalanced where
  | stray (closing : Token)
  | unclosed
deriving DecidableEq, Repr

/-- The tokens as forms side by side. -/
def splitRuns : List Token → Except Unbalanced (List Run)
  | [] => .ok []
  | t :: rest =>
    match t.kind with
    | .opening =>
      match _h : closeRun 0 (t :: rest) with
      | none => .error .unclosed
      | some (run, after) => do
        let runs ← splitRuns after
        .ok (run :: runs)
    | .closing => .error (.stray t)
    | _ => do
      let runs ← splitRuns rest
      .ok ([t] :: runs)
termination_by ts => ts.length
decreasing_by
  · exact length_closeRun _h
  · exact Nat.lt_succ_self _

/-- Splitting keeps every token. -/
theorem flatten_splitRuns {ts : List Token} {runs : List Run} (h : splitRuns ts = .ok runs) :
    runs.flatten = ts := by
  fun_induction splitRuns ts generalizing runs with
  | case1 => cases h; rfl
  | case2 => cases h
  | case3 t rest ht run after hr ih =>
    cases hs : splitRuns after with
    | error e => rw [hs] at h; cases h
    | ok tail =>
      rw [hs] at h
      cases h
      simp [ih hs, append_closeRun hr]
  | case4 => cases h
  | case5 t rest ho hc ih =>
    cases hs : splitRuns rest with
    | error e => rw [hs] at h; cases h
    | ok tail =>
      rw [hs] at h
      cases h
      simp [ih hs]

end MiniScheme.Expr
