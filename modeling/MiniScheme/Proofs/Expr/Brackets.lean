import Mathlib.Data.List.Basic
import MiniScheme.Proofs.Expr.Verdict

/-! The two searches for a matching bracket: one while tokens are read, and one in the run that was
read. The second splits without an error whatever the first accepts, at every depth, so the parser
meets whole runs only, and reports a premature end iff a form is open at top level. -/
namespace MiniScheme.Expr

structure IsShortest (run ts : List Token) : Prop where
  beginning : run <+: ts
  ne_nil : run ≠ []
  balanced : Balanced run
  shortest : ∀ p, p <+: ts → p ≠ [] → Balanced p → run.length ≤ p.length

/-- A suffix of the tokens between two brackets, after heads that are no brackets. -/
def IsTail (tail inner : List Token) : Prop :=
  ∃ heads, inner = heads ++ tail ∧ ∀ h ∈ heads, h.kind ≠ .opening ∧ h.kind ≠ .closing

/-- A split of tokens into forms: single tokens that are no brackets, and minimal bracketed runs. -/
def ComeApart (ts : List Token) : Prop :=
  ∃ forms, splitRuns ts = .ok forms ∧ forms.flatten = ts ∧
    ∀ form ∈ forms, IsRun form ∧ IsShortest form form

/-- `Inside run part`: repeated splitting of `run` yields `part`. -/
inductive Inside (run : Run) : Run → Prop where
  | self : Inside run run
  | form {o c : Token} {inner tail : List Token} {forms : List Run} {form : Run}
      (h : Inside run (o :: (inner ++ [c]))) (ht : IsTail tail inner)
      (hs : splitRuns tail = .ok forms) (hf : form ∈ forms) : Inside run form

/-- The top-level forms that are read, and the error that ends the reading, if any. -/
def topForms (fault : Option Fault) : List Token → List Run × Option ParseError
  | [] => ([], fault.map .fault)
  | t :: rest =>
    match t.kind with
    | .blank => topForms fault rest
    | .closing => ([], some (.unexpected t))
    | .opening =>
      match _h : readRun 0 rest with
      | some (run, after) =>
        let (forms, ending) := topForms fault after
        ((t :: run) :: forms, ending)
      | none =>
        ([], some (fault.elim
          (.unexpectedEnd ((t :: rest).getLast (List.cons_ne_nil t rest)).pos) .fault))
    | _ =>
      let (forms, ending) := topForms fault rest
      ([t] :: forms, ending)
termination_by ts => ts.length
decreasing_by
  · simp
  · exact Nat.lt_succ_of_lt (length_readRun _h)
  · simp

/-- The trees of forms and the final error, given the tree of each form. -/
def treesOf (tree : Run → Except ParseError Expr) (forms : List Run × Option ParseError) :
    Except ParseError (List Expr) :=
  (forms.1.mapM tree).bind fun es => forms.2.elim (.ok es) .error

def treeOf (tree : Run → Except ParseError Expr) (run : Run) : Except ParseError Expr :=
  (shape run).bind fun
    | .leaf e => .ok e
    | .define name body pos => (tree body).map fun e => .define name e pos
    | .call name args pos => (args.mapM tree).map fun es => .call name es pos

/-- `Asks forms run`: parsing the forms may require the tree of `run`. -/
inductive Asks (forms : List Run) : Run → Prop where
  | form {run : Run} (h : run ∈ forms) : Asks forms run
  | part {run part : Run} {s : Shape} (h : Asks forms run) (hs : shape run = .ok s)
      (hp : part ∈ s.parts) : Asks forms part

section

variable {t : Token} {ts run inner tail : List Token}

theorem Balanced.of_atoms {heads : List Token}
    (hh : ∀ h ∈ heads, h.kind ≠ .opening ∧ h.kind ≠ .closing) (hb : Balanced (heads ++ tail)) :
    Balanced tail := by
  induction heads with
  | nil => exact hb
  | cons h heads ih =>
    obtain ⟨hhead, hheads⟩ := List.forall_mem_cons.1 hh
    exact ih hheads (hb.tail hhead.1)

theorem IsTail.balanced (h : IsTail tail inner) (hi : Balanced inner) : Balanced tail := by
  obtain ⟨heads, rfl, hheads⟩ := h
  exact hi.of_atoms hheads

/-- Balanced tokens contain the match of their opening bracket. -/
theorem closeRun_of_balanced (ho : t.kind = .opening) {ts : List Token} (h : Balanced (t :: ts))
    (us : List Token) :
    ∃ run after, closeRun 0 (t :: (ts ++ us)) = some (run, after) ∧ run <+: t :: ts := by
  cases h with
  | atom ho' => exact absurd ho ho'
  | @bracketed _ c inner rest _ hc hi hr =>
    have hcat : inner ++ c :: rest ++ us = inner ++ c :: (rest ++ us) := by simp
    refine ⟨t :: (inner ++ [c]), rest ++ us, ?_, ?_⟩
    · rw [hcat, closeRun_balanced ho hi hc]
    · exact ⟨rest, by simp⟩

/-- A run is the shortest balanced prefix of every extension of it. -/
theorem IsRun.isShortest (h : IsRun run) (us : List Token) : IsShortest run (run ++ us) where
  beginning := List.prefix_append run us
  ne_nil := h.ne_nil
  balanced := h.balanced
  shortest := by
    intro p hp hne hb
    obtain ⟨x, p, rfl⟩ := List.exists_cons_of_ne_nil hne
    cases h with
    | atom => simp
    | @bracketed o c inner ho hc hi =>
      obtain ⟨vs, hvs⟩ := hp
      obtain ⟨rfl, htail⟩ : x = o ∧ p ++ vs = inner ++ c :: us := by simpa using hvs
      obtain ⟨run, after, hclose, hle⟩ := closeRun_of_balanced ho hb vs
      rw [htail, closeRun_balanced ho hi hc] at hclose
      cases hclose
      exact hle.length_le

theorem comeApart_of_balanced (h : Balanced ts) : ComeApart ts := by
  obtain ⟨forms, hs, hforms⟩ := splitRuns_of_balanced h
  refine ⟨forms, hs, flatten_splitRuns hs, ?_⟩
  intro form hf
  have hshortest := (hforms form hf).isShortest []
  rw [List.append_nil] at hshortest
  exact ⟨hforms form hf, hshortest⟩

theorem IsRun.balanced_inner {o c : Token} (h : IsRun (o :: (inner ++ [c]))) :
    Balanced inner := by
  generalize hrun : o :: (inner ++ [c]) = run at h
  cases h with
  | atom => simp at hrun
  | bracketed ho hc hi =>
    obtain ⟨hinner, -⟩ := List.append_inj' (List.cons.inj hrun).2 rfl
    rwa [hinner]

theorem IsRun.comeApart {o c : Token} (h : IsRun (o :: (inner ++ [c]))) (ht : IsTail tail inner) :
    ComeApart tail :=
  comeApart_of_balanced (ht.balanced h.balanced_inner)

theorem Inside.isRun {part : Run} (h : Inside run part) (hr : IsRun run) : IsRun part := by
  induction h with
  | self => exact hr
  | form _ ht hs hf ih =>
    obtain ⟨forms, hs', -, hforms⟩ := ih.comeApart ht
    rw [hs] at hs'
    cases hs'
    exact (hforms _ hf).1

theorem length_lt_of_mem_parts {run part : Run} {s : Shape} (hs : shape run = .ok s)
    (hp : part ∈ s.parts) : part.length < run.length := by
  have hle : part.length ≤ s.size := by
    cases s with
    | leaf e => cases hp
    | define name body pos => rw [List.mem_singleton.1 hp]; exact Nat.le_refl _
    | call name args pos => exact (List.sublist_flatten_of_mem hp).length_le
  exact Nat.lt_of_le_of_lt hle (size_shape hs)

theorem isRun_of_mem_topForms {fault : Option Fault} {run : Run}
    (h : run ∈ (topForms fault ts).1) : IsRun run := by
  fun_induction topForms fault ts with
  | case1 | case3 | case5 => cases h
  | case2 t rest hb ih => exact ih h
  | case4 t rest ho run after hr forms ending he ih =>
    rcases List.mem_cons.1 h with rfl | h
    · exact isRun_of_readRun ho hr
    · exact ih (by rw [he]; exact h)
  | case6 t rest forms ending he hb hc ho ih =>
    rcases List.mem_cons.1 h with rfl | h
    · exact .atom ho hc
    · exact ih (by rw [he]; exact h)

theorem Asks.isRun {forms : List Run} {run : Run} (h : Asks forms run)
    (hforms : ∀ run ∈ forms, IsRun run) : IsRun run := by
  induction h with
  | form h => exact hforms _ h
  | part _ hs hp ih =>
    have hparts := parts_shape ih
    rw [hs] at hparts
    cases hparts with
    | ok h => exact (h _ hp).1

end

section

variable {tree tree' : Run → Except ParseError Expr} {run : Run} {forms : List Run}
  {ending : Option ParseError}

theorem mapM_congr (h : ∀ run ∈ forms, tree run = tree' run) :
    forms.mapM tree = forms.mapM tree' := by
  induction forms with
  | nil => rfl
  | cons run forms ih =>
    obtain ⟨hrun, hforms⟩ := List.forall_mem_cons.1 h
    rw [List.mapM_cons, List.mapM_cons, hrun, ih hforms]

theorem treesOf_cons : treesOf tree (run :: forms, ending) =
    (tree run).bind fun e => (treesOf tree (forms, ending)).map (e :: ·) := by
  simp only [treesOf, List.mapM_cons]
  cases tree run with
  | error e => rfl
  | ok e =>
    cases forms.mapM tree with
    | error e => rfl
    | ok es => cases ending <;> rfl

/-- The parser maps the top-level forms to their trees. -/
theorem ofTokens_eq_treesOf (fault : Option Fault) (ts : List Token) :
    ofTokens fault ts = treesOf ofRun (topForms fault ts) := by
  fun_induction topForms fault ts with
  | case1 =>
    rw [ofTokens_nil]
    cases fault <;> rfl
  | case2 t rest hb ih => rw [ofTokens_blank fault hb, ih]
  | case3 t rest hc =>
    rw [ofTokens_closing fault hc]
    rfl
  | case4 t rest ho run after hr forms ending he ih =>
    rw [ofTokens_opening fault ho hr, ih, treesOf_cons, he]
  | case5 t rest ho hr =>
    rw [ofTokens_unclosed fault ho hr]
    rfl
  | case6 t rest forms ending he hb hc ho ih =>
    rw [ofTokens_atom fault hb ho hc, ih, treesOf_cons, he]

theorem treeOf_congr
    (h : ∀ s, shape run = .ok s → ∀ part ∈ s.parts, tree part = tree' part) :
    treeOf tree run = treeOf tree' run := by
  unfold treeOf
  cases hs : shape run with
  | error e => rfl
  | ok s =>
    have hparts := h s hs
    cases s with
    | leaf e => rfl
    | define name body pos => simp only [Except.bind, hparts body (List.mem_singleton.2 rfl)]
    | call name args pos =>
      have hargs : args.mapM tree = args.mapM tree' := mapM_congr hparts
      simp only [Except.bind, hargs]

/-- A builder that satisfies the recursion of the parser on the runs it is asked for equals the
parser there. -/
theorem Asks.eq_ofRun (htree : ∀ run, Asks forms run → tree run = treeOf tree run)
    (h : Asks forms run) : tree run = ofRun run := by
  induction hn : run.length using Nat.strongRecOn generalizing run with
  | ind n ih =>
    subst hn
    have hparts : treeOf tree run = treeOf ofRun run := by
      apply treeOf_congr
      intro s hs part hp
      exact ih _ (length_lt_of_mem_parts hs hp) (h.part hs hp) rfl
    calc tree run = treeOf tree run := htree run h
      _ = treeOf ofRun run := hparts
      _ = ofRun run := (ofRun_eq run).symm

theorem treesOf_eq_ofTokens {fault : Option Fault} {ts : List Token}
    (htree : ∀ run, Asks (topForms fault ts).1 run → tree run = treeOf tree run) :
    treesOf tree (topForms fault ts) = ofTokens fault ts := by
  have hforms : (topForms fault ts).1.mapM tree = (topForms fault ts).1.mapM ofRun :=
    mapM_congr fun run h => (Asks.form h).eq_ofRun htree
  rw [ofTokens_eq_treesOf, treesOf, treesOf, hforms]

end

section

variable {t : Token} {ts rest run after : List Token}

/-- Reading a run depends only on the tokens of the run. -/
theorem exists_read {depth : Nat} (h : readRun depth ts = some (run, after)) :
    ∃ read, ts = read ++ after ∧ readRun depth read = some (run, []) := by
  induction ts generalizing depth run with
  | nil => cases h
  | cons t rest ih =>
    have mapped {d : Nat}
        (h : (readRun d rest).map (fun p => (t :: p.1, p.2)) = some (run, after)) :
        ∃ read, rest = read ++ after ∧
          (readRun d read).map (fun p => (t :: p.1, p.2)) = some (run, []) := by
      obtain ⟨⟨run', after'⟩, hr, he⟩ := Option.map_eq_some_iff.1 h
      obtain ⟨rfl, rfl⟩ := Prod.mk.inj he
      obtain ⟨read, hread, hrun⟩ := ih hr
      exact ⟨read, hread, by rw [hrun]; rfl⟩
    simp only [readRun] at h
    split at h
    · rename_i hk
      obtain ⟨read, rfl, hrun⟩ := ih h
      exact ⟨t :: read, rfl, by simp only [readRun, hk, hrun]⟩
    · rename_i hk
      obtain ⟨read, rfl, hrun⟩ := mapped h
      exact ⟨t :: read, rfl, by simp only [readRun, hk, hrun]⟩
    · rename_i hk
      obtain ⟨rfl, rfl⟩ := Prod.mk.inj (Option.some.inj h)
      exact ⟨[t], rfl, by simp only [readRun, hk]⟩
    · rename_i hk
      obtain ⟨read, rfl, hrun⟩ := mapped h
      exact ⟨t :: read, rfl, by simp only [readRun, hk, hrun]⟩
    · obtain ⟨read, rfl, hrun⟩ := mapped h
      refine ⟨t :: read, rfl, ?_⟩
      rw [← hrun]
      simp only [readRun]

theorem eq_withoutBlanks_of_readRun {depth : Nat} (h : readRun depth ts = some (run, [])) :
    run = withoutBlanks ts := by
  have hread := readRun_withoutBlanks depth ts
  rw [h] at hread
  have happend := append_closeRun hread.symm
  rwa [withoutBlanks_nil, List.append_nil] at happend

theorem readRun_eq_none_iff (ho : t.kind = .opening) :
    readRun 0 rest = none ↔
      ∀ p, p <+: withoutBlanks (t :: rest) → p ≠ [] → ¬Balanced p := by
  rw [withoutBlanks_cons (by simp [ho])]
  have hread := closeRun_withoutBlanks ho rest
  constructor
  · intro hnone p hp hne hb
    obtain ⟨x, p, rfl⟩ := List.exists_cons_of_ne_nil hne
    obtain ⟨vs, hvs⟩ := hp
    obtain ⟨rfl, htail⟩ : x = t ∧ p ++ vs = withoutBlanks rest := by simpa using hvs
    obtain ⟨run, after, hclose, -⟩ := closeRun_of_balanced ho hb vs
    rw [hnone, ← htail, hclose] at hread
    cases hread
  · intro hopen
    cases hr : readRun 0 rest with
    | none => rfl
    | some p =>
      obtain ⟨run, after⟩ := p
      rw [hr] at hread
      have hrun := isRun_of_readRun ho hr
      have hbeginning : t :: run <+: t :: withoutBlanks rest :=
        ⟨withoutBlanks after, append_closeRun hread⟩
      exact absurd hrun.balanced (hopen _ hbeginning hrun.ne_nil)

/-- `EndsOpen ts pos`: after complete forms a bracket is opened that nothing closes, and the last
token is at `pos`. -/
inductive EndsOpen : List Token → Position → Prop where
  | intro {before rest : List Token} {t : Token} {es : List Expr}
      (hbefore : ofTokens none before = .ok es) (ho : t.kind = .opening)
      (hopen : ∀ p, p <+: withoutBlanks (t :: rest) → p ≠ [] → ¬Balanced p) :
      EndsOpen (before ++ t :: rest) ((t :: rest).getLast (List.cons_ne_nil t rest)).pos

theorem EndsOpen.prepend {pos : Position} {es : List Expr} (h : EndsOpen ts pos)
    {front : List Token}
    (hfront : ∀ us, ofTokens none (front ++ us) = (ofTokens none us).map (es ++ ·)) :
    EndsOpen (front ++ ts) pos := by
  cases h with
  | @intro before rest t es' hbefore ho hopen =>
    rw [← List.append_assoc]
    have hall : ofTokens none (front ++ before) = .ok (es ++ es') := by
      rw [hfront, hbefore]
      rfl
    exact .intro hall ho hopen

theorem ofTokens_front {front : List Token} {run : Run} {e : Expr}
    (hfront : ∀ us, ofTokens none (front ++ us) =
      (ofRun run).bind fun e => (ofTokens none us).map (e :: ·)) (he : ofRun run = .ok e)
    (us : List Token) : ofTokens none (front ++ us) = (ofTokens none us).map ([e] ++ ·) := by
  rw [hfront, he]
  rfl

theorem unexpectedEnd_of_bind {run : Run} (hr : IsRun run) {es : Except ParseError (List Expr)}
    {pos : Position}
    (h : ((ofRun run).bind fun e => es.map (e :: ·)) = .error (.unexpectedEnd pos)) :
    ∃ e, ofRun run = .ok e ∧ es = .error (.unexpectedEnd pos) := by
  cases he : ofRun run with
  | error err =>
    rw [he] at h
    obtain ⟨t, -, rfl⟩ := unexpected_of_ofRun hr he
    cases h
  | ok e =>
    rw [he] at h
    cases hes : es with
    | error err =>
      rw [hes] at h
      cases h
      exact ⟨e, rfl, rfl⟩
    | ok es =>
      rw [hes] at h
      cases h

theorem endsOpen_of_ofTokens {fault : Option Fault} {pos : Position}
    (h : ofTokens fault ts = .error (.unexpectedEnd pos)) : fault = none ∧ EndsOpen ts pos := by
  induction hn : ts.length using Nat.strongRecOn generalizing ts with
  | ind n ih =>
    subst hn
    cases ts with
    | nil =>
      rw [ofTokens_nil] at h
      cases fault <;> cases h
    | cons t rest =>
      by_cases hb : t.kind = .blank
      · rw [ofTokens_blank _ hb] at h
        obtain ⟨hfault, hopen⟩ := ih _ (Nat.lt_succ_self _) h rfl
        have hfront (us : List Token) :
            ofTokens none ([t] ++ us) = (ofTokens none us).map ([] ++ ·) := by
          rw [List.singleton_append, ofTokens_blank _ hb]
          cases ofTokens none us <;> rfl
        exact ⟨hfault, hopen.prepend hfront⟩
      by_cases hc : t.kind = .closing
      · rw [ofTokens_closing _ hc] at h
        cases h
      by_cases ho : t.kind = .opening
      · cases hr : readRun 0 rest with
        | none =>
          rw [ofTokens_unclosed _ ho hr] at h
          cases fault with
          | some cause => cases h
          | none =>
            cases h
            have hnil : ofTokens none [] = .ok [] := ofTokens_nil none
            exact ⟨rfl, .intro hnil ho ((readRun_eq_none_iff ho).1 hr)⟩
        | some p =>
          obtain ⟨run, after⟩ := p
          rw [ofTokens_opening _ ho hr] at h
          obtain ⟨e, he, hafter⟩ := unexpectedEnd_of_bind (isRun_of_readRun ho hr) h
          obtain ⟨hfault, hopen⟩ := ih _ (Nat.lt_succ_of_lt (length_readRun hr)) hafter rfl
          obtain ⟨read, rfl, hread⟩ := exists_read hr
          have hfront (us : List Token) : ofTokens none (t :: read ++ us) =
              (ofRun (t :: run)).bind fun e => (ofTokens none us).map (e :: ·) :=
            ofTokens_opening none ho (readRun_append hread us)
          exact ⟨hfault, hopen.prepend (ofTokens_front hfront he)⟩
      · rw [ofTokens_atom _ hb ho hc] at h
        obtain ⟨e, he, hrest⟩ := unexpectedEnd_of_bind (.atom ho hc) h
        obtain ⟨hfault, hopen⟩ := ih _ (Nat.lt_succ_self _) hrest rfl
        have hfront (us : List Token) : ofTokens none ([t] ++ us) =
            (ofRun [t]).bind fun e => (ofTokens none us).map (e :: ·) :=
          ofTokens_atom none hb ho hc
        exact ⟨hfault, hopen.prepend (ofTokens_front hfront he)⟩

theorem EndsOpen.ofTokens_eq {pos : Position} (h : EndsOpen ts pos) :
    ofTokens none ts = .error (.unexpectedEnd pos) := by
  cases h with
  | intro hbefore ho hopen =>
    rw [ofTokens_append_of_ok hbefore none rfl,
      ofTokens_unclosed _ ho ((readRun_eq_none_iff ho).2 hopen)]
    rfl

end

/-- A run that is read from an opening bracket consists of all tokens except blanks up to its end,
and is their shortest balanced prefix. The tokens between its brackets split into forms without an
error, also after heads, and so do the tokens inside these forms, at every depth. Hence every run
that the parser takes apart is balanced and nonempty, its parts are shorter, and the parser does not
depend on the treatment of other runs. It reports a premature end iff the tokens end after complete
forms while a form is open. -/
theorem splitRuns_of_readRun (fault : Option Fault) (ts : List Token) :
    (∀ t rest run after, t.kind = .opening → readRun 0 rest = some (run, after) →
      (∃ read, rest = read ++ after ∧ run = withoutBlanks read) ∧
      IsRun (t :: run) ∧ IsShortest (t :: run) (withoutBlanks (t :: rest)) ∧
      ∀ o inner c tail, Inside (t :: run) (o :: (inner ++ [c])) → IsTail tail inner →
        ComeApart tail) ∧
    (∀ run, Asks (topForms fault ts).1 run → run ≠ [] ∧ Balanced run ∧
      (∀ s, shape run = .ok s → ∀ part ∈ s.parts, part.length < run.length) ∧
      ∀ o inner c tail, run = o :: (inner ++ [c]) → IsTail tail inner → ComeApart tail) ∧
    (∀ tree, (∀ run, Asks (topForms fault ts).1 run → tree run = treeOf tree run) →
      treesOf tree (topForms fault ts) = ofTokens fault ts) ∧
    ∀ pos, ofTokens fault ts = .error (.unexpectedEnd pos) ↔ fault = none ∧ EndsOpen ts pos := by
  refine ⟨?_, ?_, fun tree => treesOf_eq_ofTokens, ?_⟩
  · intro t rest run after ho hr
    have hrun := isRun_of_readRun ho hr
    obtain ⟨read, rfl, hread⟩ := exists_read hr
    obtain rfl := eq_withoutBlanks_of_readRun hread
    refine ⟨⟨read, rfl, rfl⟩, hrun, ?_, ?_⟩
    · rw [withoutBlanks_cons (by simp [ho]), withoutBlanks_append]
      exact hrun.isShortest (withoutBlanks after)
    · intro o inner c tail hinside ht
      exact (hinside.isRun hrun).comeApart ht
  · intro run hasks
    have hrun := hasks.isRun fun run => isRun_of_mem_topForms
    refine ⟨hrun.ne_nil, hrun.balanced, fun s hs part => length_lt_of_mem_parts hs, ?_⟩
    rintro o inner c tail rfl ht
    exact hrun.comeApart ht
  · intro pos
    constructor
    · exact endsOpen_of_ofTokens
    · rintro ⟨rfl, hopen⟩
      exact hopen.ofTokens_eq

/-- A definition of a nested call, followed by an unclosed bracket. -/
theorem splitRuns_of_readRun_nested :
    let ts := (tokenize (ascii "(define x (f (g 1) \"a\"))(")).1
    (∃ t rest run after, ts = t :: rest ∧ readRun 0 rest = some (run, after) ∧ after.length = 1 ∧
      IsShortest (t :: run) (withoutBlanks ts)) ∧
    EndsOpen ts ⟨24, 0, 24⟩ := by
  intro ts
  have hfirst : ts.head?.map (·.kind) = some .opening := by decide +kernel
  have hread : (readRun 0 ts.tail).map (·.2.length) = some 1 := by decide +kernel
  have hparse : ofTokens none ts = .error (.unexpectedEnd ⟨24, 0, 24⟩) := by decide +kernel
  obtain ⟨hruns, -, -, hend⟩ := splitRuns_of_readRun none ts
  obtain ⟨t, ht, ho⟩ := Option.map_eq_some_iff.1 hfirst
  obtain ⟨⟨run, after⟩, hr, hafter⟩ := Option.map_eq_some_iff.1 hread
  have hts : ts = t :: ts.tail := (List.cons_head?_tail ht).symm
  obtain ⟨-, -, hshortest, -⟩ := hruns t ts.tail run after ho hr
  rw [← hts] at hshortest
  exact ⟨⟨t, ts.tail, run, after, hts, hr, hafter, hshortest⟩, ((hend _).1 hparse).2⟩

end MiniScheme.Expr
