import MiniScheme.Proofs.Expr.Grammar

/-! What the parser determines about tokens independently of the rest. They are complete forms, one
of them is permanently unexpected, or a form is still open. -/
namespace MiniScheme.Expr

/-- The tokens close a run in which `depth` brackets are open. -/
inductive Closes : (depth : Nat) → List Token → Prop where
  | zero {inner : List Token} {c : Token} (hi : Balanced inner) (hc : c.kind = .closing) :
      Closes 0 (inner ++ [c])
  | succ {depth : Nat} {inner rest : List Token} {c : Token} (hi : Balanced inner)
      (hc : c.kind = .closing) (hr : Closes depth rest) : Closes (depth + 1) (inner ++ c :: rest)

theorem Closes.prepend {depth : Nat} {ts us : List Token} (ht : Balanced ts)
    (hu : Closes depth us) : Closes depth (ts ++ us) := by
  cases hu with
  | zero hi hc =>
    rw [← List.append_assoc]
    exact .zero (ht.append hi) hc
  | succ hi hc hr =>
    rw [← List.append_assoc]
    exact .succ (ht.append hi) hc hr

theorem closes_of_closeRun {depth : Nat} {ts run after : List Token}
    (h : closeRun (depth + 1) ts = some (run, after)) : Closes depth run := by
  induction ts generalizing depth run with
  | nil => cases h
  | cons t rest ih =>
    by_cases ho : t.kind = .opening
    · rw [closeRun_opening ho, ← Int.natCast_succ] at h
      obtain ⟨⟨run', after'⟩, hr, he⟩ := Option.map_eq_some_iff.1 h
      cases he
      cases ih hr with
      | @succ _ inner rest c hi hc hrest =>
        have hb : Balanced (t :: (inner ++ c :: [])) := .bracketed ho hc hi .nil
        have := hrest.prepend hb
        simpa using this
    by_cases hc : t.kind = .closing
    · cases depth with
      | zero =>
        rw [Int.natCast_zero, Int.zero_add, closeRun_one hc] at h
        cases h
        exact .zero .nil hc
      | succ depth =>
        rw [closeRun_closing hc (by omega), Int.natCast_succ] at h
        obtain ⟨⟨run', after'⟩, hr, he⟩ := Option.map_eq_some_iff.1 h
        cases he
        exact .succ .nil hc (ih hr)
    · rw [closeRun_atom ho hc] at h
      obtain ⟨⟨run', after'⟩, hr, he⟩ := Option.map_eq_some_iff.1 h
      cases he
      exact (ih hr).prepend (.atom ho hc .nil)

/-- The tokens up to the matching bracket are one run. -/
theorem isRun_of_closeRun {t : Token} {ts run after : List Token} (ho : t.kind = .opening)
    (h : closeRun 0 (t :: ts) = some (run, after)) : IsRun run := by
  rw [closeRun_opening ho] at h
  obtain ⟨⟨run', after'⟩, hr, he⟩ := Option.map_eq_some_iff.1 h
  cases he
  cases closes_of_closeRun hr with
  | zero hi hc => exact .bracketed ho hc hi

theorem isRun_of_readRun {t : Token} {ts run after : List Token} (ho : t.kind = .opening)
    (h : readRun 0 ts = some (run, after)) : IsRun (t :: run) := by
  have hclose := closeRun_withoutBlanks ho ts
  rw [h] at hclose
  exact isRun_of_closeRun ho hclose

theorem Balanced.tail {t : Token} {ts : List Token} (h : Balanced (t :: ts))
    (ho : t.kind ≠ .opening) : Balanced ts := by
  cases h with
  | atom _ _ hr => exact hr
  | bracketed ho' => exact absurd ho' ho

/-- Balanced tokens split into runs. -/
theorem splitRuns_of_balanced {ts : List Token} (h : Balanced ts) :
    ∃ runs, splitRuns ts = .ok runs ∧ ∀ run ∈ runs, IsRun run := by
  induction h with
  | nil => exact ⟨[], splitRuns_nil, by simp⟩
  | @atom t rest ho hc _ ih =>
    obtain ⟨runs, hs, hruns⟩ := ih
    refine ⟨[t] :: runs, ?_, List.forall_mem_cons.2 ⟨.atom ho hc, hruns⟩⟩
    rw [splitRuns_atom ho hc, hs]
    rfl
  | @bracketed o c inner rest ho hc hi _ _ ih =>
    obtain ⟨runs, hs, hruns⟩ := ih
    have hsplit := splitRuns_append (.bracketed ho hc hi) rest
    have hcat : o :: (inner ++ [c]) ++ rest = o :: (inner ++ c :: rest) := by simp
    rw [hcat] at hsplit
    refine ⟨(o :: (inner ++ [c])) :: runs, ?_, List.forall_mem_cons.2 ⟨.bracketed ho hc hi, hruns⟩⟩
    rw [hsplit, hs]
    rfl

/-- The subruns of a form that remain to be parsed. -/
def Shape.parts : Shape → List Run
  | leaf _ => []
  | define _ body _ => [body]
  | call _ args _ => args

/-- `Parts ts result`: a form over the tokens `ts` splits into runs of them, or one of them is
unexpected. -/
inductive Parts (ts : List Token) : Except ParseError Shape → Prop where
  | ok {s : Shape} (h : ∀ part ∈ s.parts, IsRun part ∧ part ⊆ ts) : Parts ts (.ok s)
  | refused {t : Token} (h : t ∈ ts) : Parts ts (.error (.unexpected t))

theorem Parts.mono {ts us : List Token} {result : Except ParseError Shape} (h : Parts ts result)
    (hs : ts ⊆ us) : Parts us result := by
  cases h with
  | ok h => exact .ok fun part hp => ⟨(h part hp).1, fun t ht => hs ((h part hp).2 ht)⟩
  | refused h => exact .refused (hs h)

theorem runsOf_of_balanced {ts : List Token} (h : Balanced ts) :
    ∃ runs, runsOf ts = .ok runs ∧ ∀ run ∈ runs, IsRun run ∧ run ⊆ ts := by
  obtain ⟨runs, hs, hruns⟩ := splitRuns_of_balanced h
  refine ⟨runs, runsOf_eq_ok_iff.2 hs, ?_⟩
  intro run hrun
  rw [← flatten_splitRuns hs]
  exact ⟨hruns run hrun, (List.sublist_flatten_of_mem hrun).subset⟩

theorem IsRun.ne_nil {run : Run} (h : IsRun run) : run ≠ [] := by
  cases h <;> exact List.cons_ne_nil _ _

theorem parts_definition (o c : Token) {ts : List Token} (h : Balanced ts) :
    Parts (c :: ts) (definition o c ts) := by
  cases ts with
  | nil => exact .refused List.mem_cons_self
  | cons target rest =>
    simp only [definition]
    by_cases ht : target.kind = .identifier
    · obtain ⟨runs, hr, hruns⟩ := runsOf_of_balanced (h.tail (by simp [ht]))
      have hsub : rest ⊆ c :: target :: rest := fun t ht => by simp [ht]
      rw [if_neg (not_not_intro ht), hr]
      rcases runs with _ | ⟨body, _ | ⟨extra, others⟩⟩
      · exact .refused List.mem_cons_self
      · have hbody := hruns body List.mem_cons_self
        refine .ok ?_
        intro part hp
        rw [List.mem_singleton.1 hp]
        exact ⟨hbody.1, fun t ht => hsub (hbody.2 ht)⟩
      · obtain ⟨hrun, hextra⟩ := hruns extra (by simp)
        obtain ⟨t, ts, rfl⟩ := List.exists_cons_of_ne_nil hrun.ne_nil
        exact .refused (hsub (hextra List.mem_cons_self))
    · rw [if_pos ht]
      exact .refused (by simp)

theorem parts_bracketed (o c : Token) {inner : List Token} (h : Balanced inner) :
    Parts (c :: inner) (bracketed o c inner) := by
  cases inner with
  | nil =>
    refine .ok ?_
    intro part hp
    cases hp
  | cons head rest =>
    simp only [bracketed]
    by_cases hh : head.kind = .identifier
    · have hrest := h.tail (by simp [hh])
      rw [if_neg (not_not_intro hh)]
      split
      · exact (parts_definition o c hrest).mono fun t ht => by
          rcases List.mem_cons.1 ht with rfl | ht
          · exact List.mem_cons_self
          · simp [ht]
      · obtain ⟨runs, hr, hruns⟩ := runsOf_of_balanced hrest
        rw [hr]
        exact .ok fun part hp => ⟨(hruns part hp).1, fun t ht => by simp [(hruns part hp).2 ht]⟩
    · rw [if_pos hh]
      exact .refused (by simp)

theorem parts_shape {run : Run} (h : IsRun run) : Parts run (shape run) := by
  cases h with
  | @atom t ho hc =>
    cases ha : ofAtom t with
    | ok e =>
      simp only [shape, ha, bind, Except.bind]
      refine .ok ?_
      intro part hp
      cases hp
    | error err =>
      have herr : err = .unexpected t := by
        unfold ofAtom at ha
        split at ha <;> cases ha <;> rfl
      simp only [shape, ha, bind, Except.bind, herr]
      exact .refused List.mem_cons_self
  | @bracketed o c inner ho hc hi =>
    rw [shape_bracketed ho hc]
    refine (parts_bracketed o c hi).mono ?_
    intro t ht
    rcases List.mem_cons.1 ht with rfl | ht <;> simp_all

theorem exists_error_of_ofRuns {runs : List Run} {e : ParseError} (h : ofRuns runs = .error e) :
    ∃ run ∈ runs, ofRun run = .error e := by
  induction runs with
  | nil => cases h
  | cons run runs ih =>
    rw [ofRuns_cons] at h
    cases hr : ofRun run with
    | error err =>
      rw [hr] at h
      cases h
      exact ⟨run, List.mem_cons_self, hr⟩
    | ok tree =>
      cases hrs : ofRuns runs with
      | error err =>
        rw [hr, hrs] at h
        cases h
        obtain ⟨run', hmem, hrun'⟩ := ih hrs
        exact ⟨run', List.mem_cons_of_mem _ hmem, hrun'⟩
      | ok trees =>
        rw [hr, hrs] at h
        cases h

/-- The only error in a whole run is an unexpected token of it. -/
theorem unexpected_of_ofRun {run : Run} {e : ParseError} (hr : IsRun run)
    (h : ofRun run = .error e) : ∃ t ∈ run, e = .unexpected t := by
  induction hn : run.length using Nat.strongRecOn generalizing run e with
  | ind n ih =>
    subst hn
    have hparts := parts_shape hr
    rw [ofRun_eq] at h
    cases hs : shape run with
    | error err =>
      rw [hs] at h hparts
      cases h
      cases hparts with
      | refused ht => exact ⟨_, ht, rfl⟩
    | ok s =>
      have hsize := size_shape hs
      rw [hs] at h hparts
      cases hparts with
      | ok hp =>
        have hpart : ∃ part ∈ s.parts, ofRun part = .error e ∧ part.length ≤ s.size := by
          cases s with
          | leaf tree => cases h
          | define name body pos =>
            refine ⟨body, List.mem_singleton_self _, ?_, Nat.le_refl _⟩
            simp only [Except.bind] at h
            cases hb : ofRun body with
            | error err => rw [hb] at h; cases h; rfl
            | ok tree => rw [hb] at h; cases h
          | call name args pos =>
            simp only [Except.bind] at h
            cases ha : ofRuns args with
            | ok trees => rw [ha] at h; cases h
            | error err =>
              rw [ha] at h
              cases h
              obtain ⟨part, hmem, he⟩ := exists_error_of_ofRuns ha
              exact ⟨part, hmem, he, (List.sublist_flatten_of_mem hmem).length_le⟩
        obtain ⟨part, hmem, he, hle⟩ := hpart
        obtain ⟨t, ht, rfl⟩ := ih _ (Nat.lt_of_le_of_lt hle hsize) (hp part hmem).1 he rfl
        exact ⟨t, (hp part hmem).2 ht, rfl⟩

theorem readRun_append {depth : Nat} {ts run after : List Token}
    (h : readRun depth ts = some (run, after)) (us : List Token) :
    readRun depth (ts ++ us) = some (run, after ++ us) := by
  induction ts generalizing depth run with
  | nil => cases h
  | cons t rest ih =>
    have mapped {d : Nat}
        (h : (readRun d rest).map (fun p => (t :: p.1, p.2)) = some (run, after)) :
        (readRun d (rest ++ us)).map (fun p => (t :: p.1, p.2)) = some (run, after ++ us) := by
      obtain ⟨⟨run', after'⟩, hr, he⟩ := Option.map_eq_some_iff.1 h
      obtain ⟨rfl, rfl⟩ := Prod.mk.inj he
      rw [ih hr]
      rfl
    simp only [List.cons_append, readRun] at h ⊢
    split at h
    · exact ih h
    · exact mapped h
    · obtain ⟨rfl, rfl⟩ := Prod.mk.inj (Option.some.inj h)
      rfl
    · exact mapped h
    · exact mapped h

theorem ofTokens_blanks (fault : Option Fault) {bs : List Token} (h : withoutBlanks bs = [])
    (us : List Token) : ofTokens fault (bs ++ us) = ofTokens fault us := by
  induction bs with
  | nil => rfl
  | cons b bs ih =>
    by_cases hb : b.kind = .blank
    · rw [withoutBlanks_blank hb] at h
      rw [List.cons_append, ofTokens_blank _ hb, ih h]
    · rw [withoutBlanks_cons hb] at h
      cases h

theorem exists_of_withoutBlanks_cons {ts ws : List Token} {t : Token}
    (h : withoutBlanks ts = t :: ws) :
    ∃ bs rest, ts = bs ++ t :: rest ∧ withoutBlanks bs = [] ∧ withoutBlanks rest = ws := by
  obtain ⟨bs, rest, rfl, hbs, -, hrest⟩ := List.filter_eq_cons_iff.1 h
  exact ⟨bs, rest, rfl, List.filter_eq_nil_iff.2 hbs, hrest⟩

/-- What the tokens `ws` determine, independently of blanks: they are the forms `es`, their token
`t` is unexpected, or a form stays open. -/
inductive Verdict (ws : List Token) : Prop where
  | complete (es : List Expr) (h : ∀ fault ts us, withoutBlanks ts = ws →
      ofTokens fault (ts ++ us) = (ofTokens fault us).map (es ++ ·))
  | refused (t : Token) (ht : t ∈ ws) (h : ∀ fault ts us, withoutBlanks ts = ws →
      ofTokens fault (ts ++ us) = .error (.unexpected t))
  | unclosed (h : ∀ fault ts, withoutBlanks ts = ws →
      ∃ pos, ofTokens fault ts = .error (fault.elim (.unexpectedEnd pos) .fault))

theorem Verdict.prepend {run : Run} {ws after : List Token} (hv : Verdict after)
    (hr : IsRun run) (hrun : run ⊆ ws) (hafter : after ⊆ ws)
    (h : ∀ ts, withoutBlanks ts = ws → ∃ rest, withoutBlanks rest = after ∧ ∀ fault us,
      ofTokens fault (ts ++ us) =
        (ofRun run).bind fun e => (ofTokens fault (rest ++ us)).map (e :: ·)) : Verdict ws := by
  cases hrun' : ofRun run with
  | error err =>
    obtain ⟨t, ht, rfl⟩ := unexpected_of_ofRun hr hrun'
    refine .refused t (hrun ht) ?_
    intro fault ts us hts
    obtain ⟨rest, -, hstep⟩ := h ts hts
    rw [hstep, hrun']
    rfl
  | ok e =>
    have step : ∀ ts, withoutBlanks ts = ws → ∃ rest, withoutBlanks rest = after ∧ ∀ fault us,
        ofTokens fault (ts ++ us) = (ofTokens fault (rest ++ us)).map (e :: ·) := by
      intro ts hts
      obtain ⟨rest, hrest, hstep⟩ := h ts hts
      refine ⟨rest, hrest, ?_⟩
      intro fault us
      rw [hstep, hrun']
      rfl
    cases hv with
    | complete es hes =>
      refine .complete (e :: es) ?_
      intro fault ts us hts
      obtain ⟨rest, hrest, hstep⟩ := step ts hts
      rw [hstep, hes fault rest us hrest]
      cases ofTokens fault us <;> rfl
    | refused t ht hes =>
      refine .refused t (hafter ht) ?_
      intro fault ts us hts
      obtain ⟨rest, hrest, hstep⟩ := step ts hts
      rw [hstep, hes fault rest us hrest]
      rfl
    | unclosed hes =>
      refine .unclosed ?_
      intro fault ts hts
      obtain ⟨rest, hrest, hstep⟩ := step ts hts
      obtain ⟨pos, hpos⟩ := hes fault rest hrest
      refine ⟨pos, ?_⟩
      have hend := hstep fault []
      rw [List.append_nil, List.append_nil, hpos] at hend
      exact hend

theorem verdict_cons {t : Token} {ws : List Token} (hb : t.kind ≠ .blank)
    (ih : ∀ after, after.length ≤ ws.length → after ⊆ ws → Verdict after) :
    Verdict (t :: ws) := by
  by_cases hc : t.kind = .closing
  · refine .refused t List.mem_cons_self ?_
    intro fault ts us hts
    obtain ⟨bs, rest, rfl, hbs, -⟩ := exists_of_withoutBlanks_cons hts
    rw [List.append_assoc, ofTokens_blanks _ hbs, List.cons_append, ofTokens_closing _ hc]
  by_cases ho : t.kind = .opening
  · cases hr : closeRun 0 (t :: ws) with
    | none =>
      refine .unclosed ?_
      intro fault ts hts
      obtain ⟨bs, rest, rfl, hbs, hrest⟩ := exists_of_withoutBlanks_cons hts
      have hread := closeRun_withoutBlanks ho rest
      rw [hrest, hr, eq_comm, Option.map_eq_none_iff] at hread
      rw [ofTokens_blanks _ hbs, ofTokens_unclosed _ ho hread]
      exact ⟨_, rfl⟩
    | some p =>
      obtain ⟨run, after⟩ := p
      have hrun := isRun_of_closeRun ho hr
      have hcat : run ++ after = t :: ws := append_closeRun hr
      obtain ⟨first, tail, rfl⟩ := List.exists_cons_of_ne_nil hrun.ne_nil
      obtain ⟨rfl, rfl⟩ : first = t ∧ tail ++ after = ws := by simpa using hcat
      have hsub : after ⊆ tail ++ after := List.subset_append_right _ _
      refine (ih after (by simp) hsub).prepend hrun ?_ ?_ ?_
      · simp
      · exact fun u hu => List.mem_cons_of_mem _ (hsub hu)
      · intro ts hts
        obtain ⟨bs, rest, rfl, hbs, hrest⟩ := exists_of_withoutBlanks_cons hts
        have hread := closeRun_withoutBlanks ho rest
        rw [hrest, hr, eq_comm] at hread
        obtain ⟨⟨run', rest'⟩, hfound, he⟩ := Option.map_eq_some_iff.1 hread
        obtain ⟨htail, rfl⟩ := Prod.mk.inj he
        obtain ⟨-, rfl⟩ := List.cons.inj htail
        refine ⟨rest', rfl, ?_⟩
        intro fault us
        rw [List.append_assoc, ofTokens_blanks _ hbs, List.cons_append,
          ofTokens_opening _ ho (readRun_append hfound us)]
  · refine (ih ws (Nat.le_refl _) (List.Subset.refl ws)).prepend (.atom ho hc) ?_ ?_ ?_
    · simp
    · exact List.subset_cons_self _ _
    · intro ts hts
      obtain ⟨bs, rest, rfl, hbs, hrest⟩ := exists_of_withoutBlanks_cons hts
      refine ⟨rest, hrest, ?_⟩
      intro fault us
      rw [List.append_assoc, ofTokens_blanks _ hbs, List.cons_append, ofTokens_atom _ hb ho hc]

theorem verdict_of_kinds (ws : List Token) (h : ∀ t ∈ ws, t.kind ≠ .blank) : Verdict ws := by
  induction hn : ws.length using Nat.strongRecOn generalizing ws with
  | ind n ih =>
    subst hn
    cases ws with
    | nil =>
      refine .complete [] ?_
      intro fault ts us hts
      rw [ofTokens_blanks _ hts]
      cases ofTokens fault us <;> rfl
    | cons t ws =>
      refine verdict_cons (h t List.mem_cons_self) ?_
      intro after hlen hsub
      exact ih _ (Nat.lt_succ_of_le hlen) after
        (fun u hu => h u (List.mem_cons_of_mem _ (hsub hu))) rfl

/-- Every token list has a verdict, which no later token revises. -/
theorem verdict (ts : List Token) : Verdict (withoutBlanks ts) := by
  refine verdict_of_kinds _ ?_
  intro t ht
  exact of_decide_eq_true (List.mem_filter.1 ht).2

theorem ofTokens_nil (fault : Option Fault) :
    ofTokens fault [] = fault.elim (.ok []) fun cause => .error (.fault cause) := by
  cases fault <;> rw [ofTokens] <;> rfl

/-- Tokens that parse keep their trees, whatever follows. -/
theorem ofTokens_append_of_ok {ts : List Token} {es : List Expr} (h : ofTokens none ts = .ok es)
    (fault : Option Fault) {us : List Token} (hus : withoutBlanks us = withoutBlanks ts)
    (vs : List Token) : ofTokens fault (us ++ vs) = (ofTokens fault vs).map (es ++ ·) := by
  cases verdict ts with
  | complete es' hes =>
    have hts := hes none ts [] rfl
    rw [List.append_nil, h, ofTokens_nil] at hts
    have heq : es = es' := by simpa [Except.map] using hts
    rw [heq]
    exact hes fault us vs hus
  | refused t _ href =>
    have hts := href none ts [] rfl
    rw [List.append_nil, h] at hts
    cases hts
  | unclosed hopen =>
    obtain ⟨pos, hpos⟩ := hopen none ts rfl
    rw [h] at hpos
    cases hpos

/-- Either a token is unexpected whatever follows, or the end of the source decides: a lexical error
there is the error, and otherwise the source ends prematurely. -/
theorem refused_or_open (ts : List Token) :
    (∃ t, ∀ fault us vs, withoutBlanks us = withoutBlanks ts →
      ofTokens fault (us ++ vs) = .error (.unexpected t)) ∨
    (∀ cause us, withoutBlanks us = withoutBlanks ts →
      ofTokens (some cause) us = .error (.fault cause)) ∧
    ∀ e, ofTokens none ts = .error e → e.isIncomplete = true := by
  cases verdict ts with
  | refused t _ h => exact .inl ⟨t, h⟩
  | complete es h =>
    refine .inr ⟨?_, ?_⟩
    · intro cause us hus
      have hend := h (some cause) us [] hus
      rw [List.append_nil, ofTokens_nil] at hend
      exact hend
    · intro e he
      have hend := h none ts [] rfl
      rw [List.append_nil, ofTokens_nil, he] at hend
      cases hend
  | unclosed h =>
    refine .inr ⟨?_, ?_⟩
    · intro cause us hus
      obtain ⟨pos, hpos⟩ := h (some cause) us hus
      exact hpos
    · intro e he
      obtain ⟨pos, hpos⟩ := h none ts rfl
      rw [he] at hpos
      cases hpos
      rfl

end MiniScheme.Expr
