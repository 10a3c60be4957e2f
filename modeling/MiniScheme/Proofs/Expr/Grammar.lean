import MiniScheme.Proofs.Expr.Runs

/-! The grammar of programs, and the parser as its decision procedure. -/
namespace MiniScheme.Expr

mutual

/-- `Form ts e`: the tokens `ts` are one form with the tree `e`. -/
inductive Form : List Token → Expr → Prop where
  | boolean {t : Token} {b : Bool} (ht : t.kind = .boolean b) :
      Form [t] (.static (.boolean b) t.pos)
  | integer {t : Token} {n : UInt64} (ht : t.kind = .integer n) :
      Form [t] (.static (.number n) t.pos)
  | string {t : Token} (ht : t.kind = .string) : Form [t] (.static (.string t.literal) t.pos)
  | identifier {t : Token} (ht : t.kind = .identifier) : Form [t] (.reference t.literal t.pos)
  | empty {o c : Token} (ho : o.kind = .opening) (hc : c.kind = .closing) :
      Form [o, c] (.empty o.pos)
  | define {o h t c : Token} {body : List Token} {e : Expr} (ho : o.kind = .opening)
      (hh : h.kind = .identifier) (hd : h.literal = ascii "define") (ht : t.kind = .identifier)
      (hb : Form body e) (hc : c.kind = .closing) :
      Form (o :: h :: t :: (body ++ [c])) (.define t.literal e o.pos)
  | call {o h c : Token} {args : List Token} {es : List Expr} (ho : o.kind = .opening)
      (hh : h.kind = .identifier) (hd : h.literal ≠ ascii "define") (ha : Forms args es)
      (hc : c.kind = .closing) :
      Form (o :: h :: (args ++ [c])) (.call h.literal es o.pos)

inductive Forms : List Token → List Expr → Prop where
  | nil : Forms [] []
  | cons {ts us : List Token} {e : Expr} {es : List Expr} (hf : Form ts e) (hs : Forms us es) :
      Forms (ts ++ us) (e :: es)

end

theorem Form.single {ts : List Token} {e : Expr} (h : Form ts e) : Forms ts [e] := by
  simpa using Forms.cons h .nil

mutual

theorem Form.isRun {ts : List Token} {e : Expr} (h : Form ts e) : IsRun ts := by
  cases h with
  | boolean ht => exact .atom (by simp [ht]) (by simp [ht])
  | integer ht => exact .atom (by simp [ht]) (by simp [ht])
  | string ht => exact .atom (by simp [ht]) (by simp [ht])
  | identifier ht => exact .atom (by simp [ht]) (by simp [ht])
  | empty ho hc => exact .bracketed ho hc .nil
  | @define o h t c body e ho hh hd ht hb hc =>
    have hi : Balanced (h :: t :: body) :=
      .atom (by simp [hh]) (by simp [hh]) (.atom (by simp [ht]) (by simp [ht]) hb.isRun.balanced)
    exact .bracketed ho hc hi
  | @call o h c args es ho hh hd ha hc =>
    have hi : Balanced (h :: args) := .atom (by simp [hh]) (by simp [hh]) ha.balanced
    exact .bracketed ho hc hi

theorem Forms.balanced {ts : List Token} {es : List Expr} (h : Forms ts es) : Balanced ts := by
  cases h with
  | nil => exact .nil
  | cons hf hs => exact hf.isRun.balanced.append hs.balanced

end

mutual

theorem Form.withoutBlanks_eq {ts : List Token} {e : Expr} (h : Form ts e) :
    withoutBlanks ts = ts := by
  cases h with
  | boolean ht => simp [withoutBlanks_cons, ht]
  | integer ht => simp [withoutBlanks_cons, ht]
  | string ht => simp [withoutBlanks_cons, ht]
  | identifier ht => simp [withoutBlanks_cons, ht]
  | empty ho hc => simp [withoutBlanks_cons, ho, hc]
  | define ho hh hd ht hb hc =>
    simp [withoutBlanks_cons, withoutBlanks_append, hb.withoutBlanks_eq, ho, hh, ht, hc]
  | call ho hh hd ha hc =>
    simp [withoutBlanks_cons, withoutBlanks_append, ha.withoutBlanks_eq, ho, hh, hc]

theorem Forms.withoutBlanks_eq {ts : List Token} {es : List Expr} (h : Forms ts es) :
    withoutBlanks ts = ts := by
  cases h with
  | nil => rfl
  | cons hf hs => rw [withoutBlanks_append, hf.withoutBlanks_eq, hs.withoutBlanks_eq]

end

inductive Shaped : Run → Shape → Prop where
  | leaf {t : Token} {e : Expr} (h : ofAtom t = .ok e) : Shaped [t] (.leaf e)
  | empty {o c : Token} (ho : o.kind = .opening) (hc : c.kind = .closing) :
      Shaped [o, c] (.leaf (.empty o.pos))
  | define {o h t c : Token} {rest : List Token} {body : Run} (ho : o.kind = .opening)
      (hh : h.kind = .identifier) (hd : h.literal = ascii "define") (ht : t.kind = .identifier)
      (hs : splitRuns rest = .ok [body]) (hc : c.kind = .closing) :
      Shaped (o :: h :: t :: (rest ++ [c])) (.define t.literal body o.pos)
  | call {o h c : Token} {rest : List Token} {args : List Run} (ho : o.kind = .opening)
      (hh : h.kind = .identifier) (hd : h.literal ≠ ascii "define")
      (hs : splitRuns rest = .ok args) (hc : c.kind = .closing) :
      Shaped (o :: h :: (rest ++ [c])) (.call h.literal args o.pos)

theorem shape_bracketed {o c : Token} (ho : o.kind = .opening) (hc : c.kind = .closing)
    (inner : List Token) : shape (o :: (inner ++ [c])) = bracketed o c inner := by
  cases inner with
  | nil => simp [shape, ho, hc]
  | cons t ts =>
    have hl : (t :: (ts ++ [c])).getLast (List.cons_ne_nil _ _) = c :=
      @List.getLast_concat _ c (t :: ts)
    have hd : (t :: (ts ++ [c])).dropLast = t :: ts := @List.dropLast_concat _ (t :: ts) c
    simp only [List.cons_append, shape, hl, hd]
    simp [ho, hc]

theorem shape_of_shaped {run : Run} {s : Shape} (h : Shaped run s) : shape run = .ok s := by
  cases h with
  | leaf h => simp [shape, h, bind, Except.bind]
  | empty ho hc => exact shape_bracketed ho hc []
  | @define o h t c rest body ho hh hd ht hs hc =>
    have hi := shape_bracketed ho hc (h :: t :: rest)
    have hr : runsOf rest = .ok [body] := runsOf_eq_ok_iff.2 hs
    rw [List.cons_append, List.cons_append] at hi
    rw [hi]
    simp [bracketed, definition, hh, hd, ht, hr, bind, Except.bind]
  | @call o h c rest args ho hh hd hs hc =>
    have hi := shape_bracketed ho hc (h :: rest)
    have hr : runsOf rest = .ok args := runsOf_eq_ok_iff.2 hs
    rw [List.cons_append] at hi
    rw [hi]
    simp [bracketed, hh, hd, hr, bind, Except.bind]

theorem shaped_of_definition {o h c : Token} {rest : List Token} {s : Shape}
    (ho : o.kind = .opening) (hh : h.kind = .identifier) (hd : h.literal = ascii "define")
    (hc : c.kind = .closing) (hs : definition o c rest = .ok s) :
    Shaped (o :: h :: (rest ++ [c])) s := by
  cases rest with
  | nil => cases hs
  | cons t rest =>
    simp only [definition] at hs
    split at hs
    · cases hs
    · rename_i ht
      cases hr : runsOf rest with
      | error e => rw [hr] at hs; cases hs
      | ok runs =>
        rw [hr] at hs
        rcases runs with _ | ⟨body, _ | ⟨extra, others⟩⟩
        · cases hs
        · cases hs
          exact .define ho hh hd (Decidable.of_not_not ht) (runsOf_eq_ok_iff.1 hr) hc
        · cases hs

theorem shaped_of_bracketed {o c : Token} {inner : List Token} {s : Shape}
    (ho : o.kind = .opening) (hc : c.kind = .closing) (hs : bracketed o c inner = .ok s) :
    Shaped (o :: (inner ++ [c])) s := by
  cases inner with
  | nil => cases hs; exact .empty ho hc
  | cons h rest =>
    simp only [bracketed] at hs
    split at hs
    · cases hs
    · rename_i hh
      have hh' : h.kind = .identifier := Decidable.of_not_not hh
      split at hs
      · rename_i hd
        exact shaped_of_definition ho hh' hd hc hs
      · rename_i hd
        cases hr : runsOf rest with
        | error e => rw [hr] at hs; cases hs
        | ok runs =>
          rw [hr] at hs
          cases hs
          exact .call ho hh' hd (runsOf_eq_ok_iff.1 hr) hc

theorem shaped_of_shape {run : Run} {s : Shape} (h : shape run = .ok s) : Shaped run s := by
  match run, h with
  | [t], h =>
    cases ha : ofAtom t with
    | error e => simp [shape, ha, bind, Except.bind] at h
    | ok e =>
      simp only [shape, ha, bind, Except.bind] at h
      cases h
      exact .leaf ha
  | o :: t :: ts, h =>
    have hcat := List.dropLast_concat_getLast (List.cons_ne_nil t ts)
    simp only [shape] at h
    split at h
    · cases h
    · rename_i hk
      have ho : o.kind = .opening := Decidable.of_not_not fun ho => hk (.inl ho)
      have hc := Decidable.of_not_not fun hc => hk (.inr hc)
      rw [← hcat]
      exact shaped_of_bracketed ho hc h

theorem form_of_ofAtom {t : Token} {e : Expr} (h : ofAtom t = .ok e) : Form [t] e := by
  unfold ofAtom at h
  split at h
  · rename_i hk; cases h; exact .boolean hk
  · rename_i hk; cases h; exact .integer hk
  · rename_i hk; cases h; exact .string hk
  · rename_i hk; cases h; exact .identifier hk
  · cases h
  · cases h
  · cases h
  · cases h

theorem forms_of_ofRuns {runs : List Run} {es : List Expr}
    (hf : ∀ run ∈ runs, ∀ e, ofRun run = .ok e → Form run e) (h : ofRuns runs = .ok es) :
    Forms runs.flatten es := by
  induction runs generalizing es with
  | nil => cases h; exact .nil
  | cons run runs ih =>
    rw [ofRuns_cons] at h
    cases hr : ofRun run with
    | error e => rw [hr] at h; cases h
    | ok e =>
      cases hrs : ofRuns runs with
      | error e => rw [hr, hrs] at h; cases h
      | ok es =>
        rw [hr, hrs] at h
        cases h
        have htail := ih (fun r hm => hf r (List.mem_cons_of_mem _ hm)) hrs
        exact .cons (hf run List.mem_cons_self e hr) htail

/-- Soundness: what the parser makes of a run is a form of the grammar. -/
theorem form_of_ofRun {run : Run} {e : Expr} (h : ofRun run = .ok e) : Form run e := by
  induction hn : run.length using Nat.strongRecOn generalizing run e with
  | ind n ih =>
    subst hn
    rw [ofRun_eq] at h
    cases hs : shape run with
    | error err => rw [hs] at h; cases h
    | ok s =>
      rw [hs] at h
      have hsize := size_shape hs
      cases shaped_of_shape hs with
      | @leaf t e ha =>
        cases h
        exact form_of_ofAtom ha
      | empty ho hc => cases h; exact .empty ho hc
      | @define o h t c rest body ho hh hd ht hsplit hc =>
        simp only [Except.bind] at h
        cases hb : ofRun body with
        | error err => rw [hb] at h; cases h
        | ok b =>
          rw [hb] at h
          cases h
          have hflat : rest = body := by simpa using (flatten_splitRuns hsplit).symm
          subst hflat
          exact .define ho hh hd ht (ih _ hsize hb rfl) hc
      | @call o h c rest args ho hh hd hsplit hc =>
        simp only [Except.bind] at h
        cases ha : ofRuns args with
        | error err => rw [ha] at h; cases h
        | ok es =>
          rw [ha] at h
          cases h
          have hforms := forms_of_ofRuns (fun arg hm e he => by
            have hle := (List.sublist_flatten_of_mem hm).length_le
            exact ih _ (Nat.lt_of_le_of_lt hle hsize) he rfl) ha
          rw [flatten_splitRuns hsplit] at hforms
          exact .call ho hh hd hforms hc

theorem ofRun_singleton (t : Token) : ofRun [t] = ofAtom t := by
  rw [ofRun_eq]
  cases ha : ofAtom t <;> simp [shape, ha, bind, Except.bind]

mutual

/-- Completeness: every form of the grammar is parsed to its tree. -/
theorem ofRun_of_form {ts : List Token} {e : Expr} (h : Form ts e) : ofRun ts = .ok e := by
  cases h with
  | boolean ht => simp only [ofRun_singleton, ofAtom, ht]
  | integer ht => simp only [ofRun_singleton, ofAtom, ht]
  | string ht => simp only [ofRun_singleton, ofAtom, ht]
  | identifier ht => simp only [ofRun_singleton, ofAtom, ht]
  | empty ho hc => rw [ofRun_eq, shape_of_shaped (.empty ho hc)]; rfl
  | @define o h t c body e ho hh hd ht hb hc =>
    have hs : splitRuns body = .ok [body] := by
      have h := splitRuns_append hb.isRun []
      rwa [List.append_nil, splitRuns_nil] at h
    rw [ofRun_eq, shape_of_shaped (.define ho hh hd ht hs hc)]
    simp only [Except.bind, ofRun_of_form hb]
    rfl
  | call ho hh hd ha hc =>
    obtain ⟨runs, hs, hr⟩ := runs_of_forms ha
    rw [ofRun_eq, shape_of_shaped (.call ho hh hd hs hc)]
    simp only [Except.bind, hr]
    rfl

theorem runs_of_forms {ts : List Token} {es : List Expr} (h : Forms ts es) :
    ∃ runs, splitRuns ts = .ok runs ∧ ofRuns runs = .ok es := by
  cases h with
  | nil => exact ⟨[], splitRuns_nil, rfl⟩
  | @cons ts us e es hf hs =>
    obtain ⟨runs, hsplit, hr⟩ := runs_of_forms hs
    refine ⟨ts :: runs, ?_, ?_⟩
    · rw [splitRuns_append hf.isRun, hsplit]
      rfl
    · rw [ofRuns_cons, ofRun_of_form hf, hr]
      rfl

end

theorem forms_iff_runs {ts : List Token} {es : List Expr} :
    Forms ts es ↔ ∃ runs, splitRuns ts = .ok runs ∧ ofRuns runs = .ok es := by
  constructor
  · exact runs_of_forms
  · rintro ⟨runs, hs, hr⟩
    have h := forms_of_ofRuns (fun _ _ _ => form_of_ofRun) hr
    rwa [flatten_splitRuns hs] at h

theorem runs_append_iff {run : Run} {us : List Token} {es : List Expr}
    (hsplit : splitRuns (run ++ us) = (splitRuns us).map (run :: ·)) :
    (∃ runs, splitRuns (run ++ us) = .ok runs ∧ ofRuns runs = .ok es) ↔
      ∃ e es', es = e :: es' ∧ ofRun run = .ok e ∧
        ∃ runs, splitRuns us = .ok runs ∧ ofRuns runs = .ok es' := by
  rw [hsplit]
  constructor
  · rintro ⟨runs, hs, hr⟩
    cases hu : splitRuns us with
    | error e => rw [hu] at hs; cases hs
    | ok tail =>
      rw [hu] at hs
      cases hs
      rw [ofRuns_cons] at hr
      cases he : ofRun run with
      | error e => rw [he] at hr; cases hr
      | ok e =>
        cases ht : ofRuns tail with
        | error e => rw [he, ht] at hr; cases hr
        | ok es' =>
          rw [he, ht] at hr
          cases hr
          exact ⟨e, es', rfl, rfl, tail, rfl, ht⟩
  · rintro ⟨e, es', rfl, he, tail, hu, ht⟩
    refine ⟨run :: tail, by rw [hu]; rfl, ?_⟩
    rw [ofRuns_cons, he, ht]
    rfl

theorem bind_map_eq_ok_iff {e? : Except ParseError Expr} {es? : Except ParseError (List Expr)}
    {es : List Expr} :
    (e?.bind fun e => es?.map (e :: ·)) = .ok es ↔
      ∃ e es', es = e :: es' ∧ e? = .ok e ∧ es? = .ok es' := by
  cases e? with
  | error err => simp [Except.bind]
  | ok e =>
    cases es? with
    | error err => simp [Except.bind, Except.map]
    | ok es' => simp [Except.bind, Except.map, eq_comm]

/-- The parser reads exactly the runs of the tokens without blanks. -/
theorem ofTokens_iff_runs {ts : List Token} {es : List Expr} :
    ofTokens none ts = .ok es ↔
      ∃ runs, splitRuns (withoutBlanks ts) = .ok runs ∧ ofRuns runs = .ok es := by
  induction hn : ts.length using Nat.strongRecOn generalizing ts es with
  | ind n ih =>
    subst hn
    match ts with
    | [] => simp [ofTokens, eq_comm]
    | t :: rest =>
      by_cases hb : t.kind = .blank
      · rw [ofTokens_blank _ hb, withoutBlanks_blank hb]
        exact ih _ (Nat.lt_succ_self _) rfl
      rw [withoutBlanks_cons hb]
      by_cases hc : t.kind = .closing
      · rw [ofTokens_closing _ hc, splitRuns_closing hc]
        simp
      by_cases ho : t.kind = .opening
      · have hclose := closeRun_withoutBlanks ho rest
        cases hr : readRun 0 rest with
        | none =>
          rw [hr] at hclose
          rw [ofTokens_unclosed _ ho hr, splitRuns_unclosed ho hclose]
          simp
        | some p =>
          obtain ⟨run, after⟩ := p
          rw [hr] at hclose
          have hcat : t :: withoutBlanks rest = (t :: run) ++ withoutBlanks after :=
            (append_closeRun hclose).symm
          have hsplit := splitRuns_opening ho hclose
          rw [hcat] at hsplit ⊢
          rw [runs_append_iff hsplit, ofTokens_opening _ ho hr, bind_map_eq_ok_iff]
          simp only [ih _ (Nat.lt_succ_of_lt (length_readRun hr)) rfl]
      · have hsplit := splitRuns_atom ho hc (withoutBlanks rest)
        have hiff := @runs_append_iff [t] (withoutBlanks rest) es hsplit
        rw [List.singleton_append] at hiff
        rw [hiff, ofTokens_atom _ hb ho hc, bind_map_eq_ok_iff]
        simp only [ih _ (Nat.lt_succ_self _) rfl]

mutual

/-- The tokens of a tree, all at the position of their node. A tree that no source has may lack
tokens. -/
def toTokens : Expr → List Token
  | empty pos => [⟨.opening, ascii "(", pos⟩, ⟨.closing, ascii ")", pos⟩]
  | static (.boolean b) pos => [⟨.boolean b, if b then ascii "#t" else ascii "#f", pos⟩]
  | static (.number n) pos => [⟨.integer n, Text.decimal n.toNat, pos⟩]
  | static (.string text) pos => [⟨.string, text, pos⟩]
  | static _ _ => []
  | reference name pos => [⟨.identifier, name, pos⟩]
  | define name body pos =>
    ⟨.opening, ascii "(", pos⟩ :: ⟨.identifier, ascii "define", pos⟩ ::
      ⟨.identifier, name, pos⟩ :: (toTokens body ++ [⟨.closing, ascii ")", pos⟩])
  | call name args pos =>
    ⟨.opening, ascii "(", pos⟩ :: ⟨.identifier, name, pos⟩ ::
      (toTokensAll args ++ [⟨.closing, ascii ")", pos⟩])
  | foreign _ _ => []
  | missing => []

def toTokensAll : List Expr → List Token
  | [] => []
  | e :: es => toTokens e ++ toTokensAll es

end

mutual

theorem form_toTokens {ts : List Token} {e : Expr} (h : Form ts e) : Form (toTokens e) e := by
  cases h with
  | boolean ht => exact .boolean rfl
  | integer ht => exact .integer rfl
  | string ht => exact .string rfl
  | identifier ht => exact .identifier rfl
  | empty ho hc => exact .empty rfl rfl
  | define ho hh hd ht hb hc => exact .define rfl rfl rfl rfl (form_toTokens hb) rfl
  | call ho hh hd ha hc => exact .call rfl rfl hd (forms_toTokensAll ha) rfl

theorem forms_toTokensAll {ts : List Token} {es : List Expr} (h : Forms ts es) :
    Forms (toTokensAll es) es := by
  cases h with
  | nil => exact .nil
  | cons hf hs => exact .cons (form_toTokens hf) (forms_toTokensAll hs)

end

theorem ofTokens_iff_forms {ts : List Token} {es : List Expr} :
    ofTokens none ts = .ok es ↔ Forms (withoutBlanks ts) es := by
  rw [ofTokens_iff_runs, forms_iff_runs]

/-- The parser accepts exactly the grammar and builds its trees, which are unique. It parses the
tokens of any tree it builds back to that tree. -/
theorem ofTokens_eq_ok_iff (ts : List Token) :
    (∀ es, ofTokens none ts = .ok es ↔ Forms (withoutBlanks ts) es) ∧
      (∀ es es', Forms (withoutBlanks ts) es → Forms (withoutBlanks ts) es' → es = es') ∧
      ∀ es, Forms (withoutBlanks ts) es → ofTokens none (toTokensAll es) = .ok es := by
  refine ⟨fun es => ofTokens_iff_forms, ?_, ?_⟩
  · intro es es' h h'
    have he := (ofTokens_iff_forms.2 h).symm.trans (ofTokens_iff_forms.2 h')
    exact Except.ok.inj he
  · intro es h
    have ht := forms_toTokensAll h
    rw [ofTokens_iff_forms, ht.withoutBlanks_eq]
    exact ht

/-- `(define x (f "a"))`, with blanks between and after its tokens. -/
theorem ofTokens_eq_ok_iff_nested_definition :
    let pos : Position := {}
    let blank : Token := ⟨.blank, ascii " ", pos⟩
    let name (text : String) : Token := ⟨.identifier, ascii text, pos⟩
    let opening : Token := ⟨.opening, ascii "(", pos⟩
    let closing : Token := ⟨.closing, ascii ")", pos⟩
    let text : Token := ⟨.string, ascii "a", pos⟩
    let ts := [opening, name "define", blank, name "x", blank, opening, name "f", blank, text,
      closing, closing, blank]
    let tree := Expr.define (ascii "x")
      (.call (ascii "f") [.static (.string (ascii "a")) pos] pos) pos
    Forms (withoutBlanks ts) [tree] ∧ ofTokens none ts = .ok [tree] ∧
      ofTokens none (toTokensAll [tree]) = .ok [tree] := by
  intro pos blank name opening closing text ts tree
  have hf : Form [opening, name "f", text, closing]
      (.call (ascii "f") [.static (.string (ascii "a")) pos] pos) :=
    .call rfl rfl (by decide) (Form.string rfl).single rfl
  have hd : Forms (withoutBlanks ts) [tree] :=
    (Form.define rfl rfl rfl rfl hf rfl).single
  have h := ofTokens_eq_ok_iff ts
  exact ⟨hd, (h.1 [tree]).2 hd, h.2.2 [tree] hd⟩

end MiniScheme.Expr
