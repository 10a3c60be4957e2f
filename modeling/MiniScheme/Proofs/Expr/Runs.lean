import MiniScheme.Expr.Parser

/-! Balanced token lists. The reader and the splitter of runs count open brackets in different ways,
and find the same matching bracket. -/
namespace MiniScheme.Expr

def withoutBlanks (ts : List Token) : List Token :=
  ts.filter fun t => t.kind ≠ .blank

@[simp] theorem withoutBlanks_nil : withoutBlanks [] = [] := rfl

theorem withoutBlanks_blank {t : Token} (h : t.kind = .blank) (ts : List Token) :
    withoutBlanks (t :: ts) = withoutBlanks ts := by
  simp [withoutBlanks, h]

theorem withoutBlanks_cons {t : Token} (h : t.kind ≠ .blank) (ts : List Token) :
    withoutBlanks (t :: ts) = t :: withoutBlanks ts := by
  simp [withoutBlanks, h]

theorem withoutBlanks_append (ts us : List Token) :
    withoutBlanks (ts ++ us) = withoutBlanks ts ++ withoutBlanks us :=
  List.filter_append ts us

/-- Every opening bracket has its closing bracket, in order. -/
inductive Balanced : List Token → Prop where
  | nil : Balanced []
  | atom {t : Token} {rest : List Token} (ho : t.kind ≠ .opening) (hc : t.kind ≠ .closing)
      (hr : Balanced rest) : Balanced (t :: rest)
  | bracketed {o c : Token} {inner rest : List Token} (ho : o.kind = .opening)
      (hc : c.kind = .closing) (hi : Balanced inner) (hr : Balanced rest) :
      Balanced (o :: (inner ++ c :: rest))

/-- The tokens of one form, as far as brackets are concerned. -/
inductive IsRun : Run → Prop where
  | atom {t : Token} (ho : t.kind ≠ .opening) (hc : t.kind ≠ .closing) : IsRun [t]
  | bracketed {o c : Token} {inner : List Token} (ho : o.kind = .opening) (hc : c.kind = .closing)
      (hi : Balanced inner) : IsRun (o :: (inner ++ [c]))

theorem Balanced.append {ts us : List Token} (ht : Balanced ts) (hu : Balanced us) :
    Balanced (ts ++ us) := by
  induction ht with
  | nil => exact hu
  | atom ho hc _ ih => exact .atom ho hc ih
  | bracketed ho hc hi _ _ ih =>
    have h := Balanced.bracketed ho hc hi ih
    simpa using h

theorem IsRun.balanced {run : Run} (h : IsRun run) : Balanced run := by
  cases h with
  | atom ho hc => exact .atom ho hc .nil
  | bracketed ho hc hi => exact .bracketed ho hc hi .nil

theorem closeRun_opening {t : Token} (h : t.kind = .opening) (depth : Int) (rest : List Token) :
    closeRun depth (t :: rest) = (closeRun (depth + 1) rest).map fun p => (t :: p.1, p.2) := by
  simp [closeRun, h]

theorem closeRun_one {t : Token} (h : t.kind = .closing) (rest : List Token) :
    closeRun 1 (t :: rest) = some ([t], rest) := by
  simp [closeRun, h]

theorem closeRun_closing {t : Token} (h : t.kind = .closing) {depth : Int} (hd : depth ≠ 0)
    (rest : List Token) :
    closeRun (depth + 1) (t :: rest) = (closeRun depth rest).map fun p => (t :: p.1, p.2) := by
  simp [closeRun, h, hd]

theorem closeRun_atom {t : Token} (ho : t.kind ≠ .opening) (hc : t.kind ≠ .closing) (depth : Int)
    (rest : List Token) :
    closeRun depth (t :: rest) = (closeRun depth rest).map fun p => (t :: p.1, p.2) := by
  cases hk : t.kind <;> simp_all [closeRun]

/-- Balanced tokens preserve a positive count. -/
theorem closeRun_append {ts : List Token} (h : Balanced ts) {depth : Int} (hd : 0 < depth)
    (us : List Token) :
    closeRun depth (ts ++ us) = (closeRun depth us).map fun p => (ts ++ p.1, p.2) := by
  induction h generalizing depth us with
  | nil => simp
  | @atom t rest ho hc _ ih =>
    rw [List.cons_append, closeRun_atom ho hc, ih hd, Option.map_map]
    rfl
  | @bracketed o c inner rest ho hc _ _ ihi ihr =>
    have hcat : o :: (inner ++ c :: rest) ++ us = o :: (inner ++ c :: (rest ++ us)) := by simp
    rw [hcat, closeRun_opening ho, ihi (by omega), closeRun_closing hc (by omega), ihr hd]
    simp [Function.comp_def]

theorem closeRun_balanced {o c : Token} {inner : List Token} (ho : o.kind = .opening)
    (hi : Balanced inner) (hc : c.kind = .closing) (rest : List Token) :
    closeRun 0 (o :: (inner ++ c :: rest)) = some (o :: (inner ++ [c]), rest) := by
  rw [closeRun_opening ho, closeRun_append hi (by decide), Int.zero_add, closeRun_one hc]
  rfl

/-- The two counts differ by one: the reader starts after the opening bracket. -/
theorem readRun_withoutBlanks (depth : Nat) (ts : List Token) :
    (readRun depth ts).map (fun p => (p.1, withoutBlanks p.2)) =
      closeRun (depth + 1) (withoutBlanks ts) := by
  induction ts generalizing depth with
  | nil => rfl
  | cons t rest ih =>
    have mapped (d : Nat) :
        ((readRun d rest).map fun p => (t :: p.1, p.2)).map
            (fun p => (p.1, withoutBlanks p.2)) =
          (closeRun (d + 1) (withoutBlanks rest)).map fun p => (t :: p.1, p.2) := by
      rw [← ih d, Option.map_map, Option.map_map]
      rfl
    by_cases hb : t.kind = .blank
    · rw [withoutBlanks_blank hb, ← ih]
      simp [readRun, hb]
    · rw [withoutBlanks_cons hb]
      by_cases ho : t.kind = .opening
      · rw [closeRun_opening ho, ← Int.natCast_succ, ← mapped]
        simp [readRun, ho]
      · by_cases hc : t.kind = .closing
        · cases depth with
          | zero =>
            rw [Int.natCast_zero, Int.zero_add, closeRun_one hc]
            simp [readRun, hc]
          | succ depth =>
            rw [closeRun_closing hc (by omega), Int.natCast_succ, ← mapped]
            simp [readRun, hc]
        · rw [closeRun_atom ho hc, ← mapped]
          cases hk : t.kind <;> simp_all [readRun]

/-- The splitter finds the bracket that the reader has found. -/
theorem closeRun_withoutBlanks {t : Token} (ho : t.kind = .opening) (rest : List Token) :
    closeRun 0 (t :: withoutBlanks rest) =
      (readRun 0 rest).map fun p => (t :: p.1, withoutBlanks p.2) := by
  have hread := readRun_withoutBlanks 0 rest
  rw [Int.natCast_zero] at hread
  rw [closeRun_opening ho, ← hread, Option.map_map]
  rfl

@[simp] theorem splitRuns_nil : splitRuns [] = .ok [] := by
  rw [splitRuns]

theorem splitRuns_opening {t : Token} {rest after : List Token} {run : Run}
    (ho : t.kind = .opening) (hr : closeRun 0 (t :: rest) = some (run, after)) :
    splitRuns (t :: rest) = (splitRuns after).map (run :: ·) := by
  rw [splitRuns]
  split
  · split
    · rename_i hn
      rw [hr] at hn
      cases hn
    · rename_i hs
      rw [hr] at hs
      cases hs
      cases splitRuns after <;> rfl
  · simp_all
  · simp_all

theorem splitRuns_unclosed {t : Token} {rest : List Token} (ho : t.kind = .opening)
    (hr : closeRun 0 (t :: rest) = none) : splitRuns (t :: rest) = .error .unclosed := by
  rw [splitRuns]
  split
  · split
    · rfl
    · simp_all
  · simp_all
  · simp_all

theorem splitRuns_closing {t : Token} (hc : t.kind = .closing) (rest : List Token) :
    splitRuns (t :: rest) = .error (.stray t) := by
  rw [splitRuns]
  split <;> simp_all

theorem splitRuns_atom {t : Token} (ho : t.kind ≠ .opening) (hc : t.kind ≠ .closing)
    (rest : List Token) : splitRuns (t :: rest) = (splitRuns rest).map ([t] :: ·) := by
  rw [splitRuns]
  split
  · simp_all
  · simp_all
  · cases splitRuns rest <;> rfl

/-- A leading run is split off. -/
theorem splitRuns_append {run : Run} (h : IsRun run) (us : List Token) :
    splitRuns (run ++ us) = (splitRuns us).map (run :: ·) := by
  cases h with
  | atom ho hc => exact splitRuns_atom ho hc us
  | @bracketed o c inner ho hc hi =>
    have hcat : o :: (inner ++ [c]) ++ us = o :: (inner ++ c :: us) := by simp
    rw [hcat, splitRuns_opening ho (closeRun_balanced ho hi hc us)]

theorem runsOf_eq_ok_iff {ts : List Token} {runs : List Run} :
    runsOf ts = .ok runs ↔ splitRuns ts = .ok runs := by
  unfold runsOf
  split <;> simp_all

section

variable (fault : Option Fault) {t : Token} {rest : List Token}

theorem ofTokens_blank (h : t.kind = .blank) :
    ofTokens fault (t :: rest) = ofTokens fault rest := by
  rw [ofTokens.eq_def]
  dsimp only
  split <;> simp_all

theorem ofTokens_closing (h : t.kind = .closing) :
    ofTokens fault (t :: rest) = .error (.unexpected t) := by
  rw [ofTokens.eq_def]
  dsimp only
  split <;> simp_all

theorem ofTokens_opening {run : Run} {after : List Token} (h : t.kind = .opening)
    (hr : readRun 0 rest = some (run, after)) :
    ofTokens fault (t :: rest) =
      (ofRun (t :: run)).bind fun e => (ofTokens fault after).map (e :: ·) := by
  rw [ofTokens.eq_def]
  dsimp only
  split
  · simp_all
  · simp_all
  · split
    · rename_i hs
      rw [hr] at hs
      cases hs
      cases ofRun (t :: run) with
      | error e => rfl
      | ok e => cases ofTokens fault after <;> rfl
    · rename_i hn
      rw [hr] at hn
      cases hn
  · simp_all

theorem ofTokens_unclosed (h : t.kind = .opening) (hr : readRun 0 rest = none) :
    ofTokens fault (t :: rest) = .error (fault.elim
      (.unexpectedEnd ((t :: rest).getLast (List.cons_ne_nil t rest)).pos) .fault) := by
  rw [ofTokens.eq_def]
  dsimp only
  split
  · simp_all
  · simp_all
  · split
    · rename_i hs
      rw [hr] at hs
      cases hs
    · cases fault <;> rfl
  · simp_all

theorem ofTokens_atom (hb : t.kind ≠ .blank) (ho : t.kind ≠ .opening) (hc : t.kind ≠ .closing) :
    ofTokens fault (t :: rest) =
      (ofRun [t]).bind fun e => (ofTokens fault rest).map (e :: ·) := by
  rw [ofTokens.eq_def]
  dsimp only
  split
  · simp_all
  · simp_all
  · simp_all
  · cases ofRun [t] with
    | error e => rfl
    | ok e => cases ofTokens fault rest <;> rfl

end

end MiniScheme.Expr
