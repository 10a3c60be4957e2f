import MiniScheme.Proofs.Code.Lines
import MiniScheme.Proofs.Expr.Formula
import MiniScheme.Proofs.Interpreter.Dump

/-! Arithmetic in programs. A formula evaluates to its exact value, or is refused at its first term
that is out of range. -/
namespace MiniScheme

/-- The calculation of `terms` ends with a value satisfying `P` if all of them are in range, and
otherwise with a refusal in the chunk of the first that is not. -/
inductive Ending.Settles (terms : List (Nat × Term)) (P : Value → Prop) : Ending → Prop where
  | value {v : Value} (hterms : ∀ t ∈ terms, isNumber t.2.exact) (hv : P v) :
      Settles terms P (.ok v)
  | refusal {before after : List (Nat × Term)} {id : Nat} {t : Term} {detail : Bytes} {site : Site}
      {sites : List Site} {stack : List Value} (hterms : terms = before ++ (id, t) :: after)
      (hbefore : ∀ u ∈ before, isNumber u.2.exact) (ht : ¬isNumber t.exact)
      (hsite : site.chunk = id) :
      Settles terms P (.error ⟨.refused (.typeMismatch detail), site :: sites, stack⟩)

theorem Ending.Settles.append {terms more : List (Nat × Term)} {P : Value → Prop} {r : Ending}
    (hterms : ∀ t ∈ terms, isNumber t.2.exact) (h : Settles more P r) :
    Settles (terms ++ more) P r := by
  cases h with
  | value hmore hv => exact .value (List.forall_mem_append.2 ⟨hterms, hmore⟩) hv
  | @refusal before after id t detail site sites stack hmore hbefore ht hsite =>
    have hsplit : terms ++ more = terms ++ before ++ (id, t) :: after := by
      rw [hmore, List.append_assoc]
    exact .refusal hsplit (List.forall_mem_append.2 ⟨hterms, hbefore⟩) ht hsite

def Reply.ending (site : Site) (r : Reply) : Ending :=
  match r.result with
  | .ok v => .ok v
  | .error failure => .error ⟨failure, [site], []⟩

theorem Operator.settles_reply (op : Operator) {left right : Term} (m : Machine) {x y : Value}
    (hx : x.Denotes left.exact) (hy : y.Denotes right.exact) {site : Site} {id : Nat}
    (hsite : site.chunk = id) :
    ((op.native.handler m [x, y]).2.ending site).Settles [(id, .apply op left right)]
      (Value.Denotes (Term.apply op left right).exact) := by
  obtain ⟨a, rfl, ha⟩ := hx
  obtain ⟨b, rfl, hb⟩ := hy
  have hreply := op.reply m a b
  rw [ha, hb] at hreply
  by_cases hn : isNumber (op.exact left.exact right.exact)
  · obtain ⟨w, hw, hexact⟩ := hreply.1 hn
    rw [hw]
    exact .value (List.forall_mem_singleton.2 hn) ⟨w, rfl, hexact⟩
  · obtain ⟨detail, hdetail⟩ := hreply.2 hn
    rw [hdetail]
    exact .refusal (List.nil_append _).symm (by simp) hn hsite

namespace Context

variable {ctx : Context} {depth : Nat} {chunk : Chunk} {ip : Nat} {rest : List Op}

def Calculates (ctx : Context) (depth id : Nat) (terms : List (Nat × Term)) (P : Value → Prop) :
    Prop :=
  ∃ c, ctx.chunk? id = some (some c) ∧ ∀ w, (ctx.activate depth c w).2.Settles terms P

theorem settles_push (hlimit : ctx.limit = 0) (hroom : depth < ctx.maxFrames) {id : Nat}
    (hcode : chunk.code.drop ip = .push id :: rest) {l : Local} {w : World}
    {terms more : List (Nat × Term)} {P Q : Value → Prop}
    (hcallee : ctx.Calculates (depth + 1) id terms P)
    (hk : ∀ v w, P v →
      (ctx.proceed depth chunk (ip + 1) { l with stack := v :: l.stack } w).2.Settles more Q) :
    (ctx.proceed depth chunk ip l w).2.Settles (terms ++ more) Q := by
  obtain ⟨callee, hid, hsettles⟩ := hcallee
  rw [proceed_push l (getElem?_of_drop hcode).1 (not_limited hlimit w), hid]
  dsimp only
  rw [if_neg (Nat.not_le.2 hroom)]
  have hends := hsettles (begun depth chunk ip (.push id) w)
  generalize ctx.activate (depth + 1) callee (begun depth chunk ip (.push id) w) = r at hends ⊢
  obtain ⟨w', ending⟩ := r
  cases hends with
  | @value v hterms hv => exact (hk v w' hv).append hterms
  | @refusal before after id t detail site sites stack hterms hbefore ht hsite =>
    have hsplit : terms ++ more = before ++ (id, t) :: (after ++ more) := by
      rw [hterms, List.append_assoc, List.cons_append]
    exact .refusal hsplit hbefore ht hsite

theorem ending_end (hcode : chunk.code.drop ip = []) (stack : List Value) (w : World) :
    (ctx.proceed depth chunk ip { stack } w).2 = .ok (stack.headD .null) := by
  have hip : chunk.code.length ≤ ip := List.drop_eq_nil_iff.1 hcode
  rw [proceed, dif_neg (Nat.not_lt.2 hip)]

theorem invoke_two {native : Native} (harity : native.arity = 2)
    (hn : ctx.natives.callable? native.name = some native) (x y : Value) (w : World) :
    ctx.invoke native.name 2 [y, x] w =
      match ctx.answer native [x, y] w with
      | (w, .ok v) => (w, .ok { stack := [v] })
      | (w, .error failure) => (w, .error (failure, [])) := by
  have hlength : ¬(([y, x].length : Nat) : Int) < 2 := Int.lt_irrefl 2
  unfold invoke
  rw [hn]
  dsimp only
  rw [harity, if_neg (by decide), if_neg hlength, if_neg (by decide)]
  rfl

theorem exists_call_ending (hlimit : ctx.limit = 0) {native : Native} (harity : native.arity = 2)
    (hn : ctx.natives.callable? native.name = some native)
    (hcode : chunk.code.drop ip = [.lookup native.name, .call 2]) (x y : Value) (w : World) :
    ∃ m, (ctx.proceed depth chunk ip { stack := [y, x] } w).2 =
      (native.handler m [x, y]).2.ending (chunk.siteAt (ip + 1 : Nat)) := by
  have hcall := (getElem?_of_drop hcode).2
  have hend := (getElem?_of_drop hcall).2
  rw [proceed_unlimited hlimit hcode (by intro id h; cases h)]
  dsimp only [perform]
  rw [proceed_unlimited hlimit hcall (by intro id h; cases h)]
  dsimp only [perform]
  generalize begun depth chunk (ip + 1) (.call 2) _ = w'
  refine ⟨ctx.host w', ?_⟩
  have hresult : (native.handler (ctx.host w') [x, y]).2.result =
      (ctx.answer native [x, y] w').2 := rfl
  rw [invoke_two harity hn, Reply.ending, hresult]
  generalize ctx.answer native [x, y] w' = r
  obtain ⟨w'', result⟩ := r
  cases result with
  | error failure => rfl
  | ok v => exact ending_end hend [v] w''

/-- The terms of the arguments are calculated from left to right, and then the result of the
procedure. -/
theorem calculates_call (hlimit : ctx.limit = 0) (hroom : depth < ctx.maxFrames) {native : Native}
    (harity : native.arity = 2) (hn : ctx.natives.callable? native.name = some native)
    {id i j : Nat} {line : Int}
    (hid : ctx.chunk? id =
      some (some (.onLine id line [.push i, .push j, .lookup native.name, .call 2])))
    {first second own : List (Nat × Term)} {P Q R : Value → Prop}
    (hi : ctx.Calculates (depth + 1) i first P) (hj : ctx.Calculates (depth + 1) j second Q)
    (hreply : ∀ m x y (site : Site), P x → Q y → site.chunk = id →
      ((native.handler m [x, y]).2.ending site).Settles own R) :
    ctx.Calculates depth id (first ++ (second ++ own)) R := by
  refine ⟨_, hid, ?_⟩
  intro w
  have hcode (ops : List Op) : (Chunk.onLine id line ops).code.drop 0 = ops :=
    Chunk.code_onLine id line ops
  have hpush := hcode [.push i, .push j, .lookup native.name, .call 2]
  have hpush' := (getElem?_of_drop hpush).2
  have hlookup := (getElem?_of_drop hpush').2
  rw [activate]
  apply settles_push hlimit hroom hpush hi
  intro x w₁ hx
  apply settles_push hlimit hroom hpush' hj
  intro y w₂ hy
  obtain ⟨m, hm⟩ := exists_call_ending hlimit harity hn hlookup x y w₂
  rw [hm]
  exact hreply m x y _ hx hy (Chunk.id_onLine id line _)

end Context

theorem Term.IsRead.size_eq {t : Term} {e : Expr} (h : t.IsRead e) : e.size = t.size := by
  induction h with
  | numeral => rfl
  | @apply op left right a b pos ha hb iha ihb =>
    rw [Expr.size, Expr.sizeAll, Expr.sizeAll, Expr.sizeAll, iha, ihb]
    rfl

/-- Each term is represented by the node with its number, in a tree with the number `id`. -/
def Term.AreNodes (terms : List (Nat × Term)) (id : Nat) (e : Expr) : Prop :=
  ∀ i t, (i, t) ∈ terms → ∃ k node, i = id + k ∧ e.nodes[k]? = some node ∧ t.IsRead node

theorem Term.areNodes_call {first second : List (Nat × Term)} {id : Nat} {a b : Expr}
    (ha : AreNodes first (id + 1) a) (hb : AreNodes second (id + 1 + a.size) b) (name : Bytes)
    (pos : Position) : AreNodes (first ++ second) id (.call name [a, b] pos) := by
  have hnodes : (Expr.call name [a, b] pos).nodes =
      .call name [a, b] pos :: (a.nodes ++ (b.nodes ++ [])) := rfl
  intro i t hi
  rw [hnodes, List.append_nil]
  rcases List.mem_append.1 hi with hi | hi
  · obtain ⟨k, node, rfl, hk, hnode⟩ := ha i t hi
    have hlt : k < a.nodes.length := (List.getElem?_eq_some_iff.1 hk).1
    refine ⟨k + 1, node, by omega, ?_, hnode⟩
    rw [List.getElem?_cons_succ, List.getElem?_append_left hlt, hk]
  · obtain ⟨k, node, rfl, hk, hnode⟩ := hb i t hi
    refine ⟨a.size + k + 1, node, by omega, ?_, hnode⟩
    rw [List.getElem?_cons_succ, ← Expr.length_nodes,
      List.getElem?_append_right (Nat.le_add_right _ _), Nat.add_sub_cancel_left, hk]

theorem Term.IsRead.areNodes {t : Term} {e : Expr} (h : t.IsRead e) (id : Nat) :
    AreNodes (t.postorder id) id e := by
  induction h generalizing id with
  | numeral =>
    intro i t hi
    cases List.mem_singleton.1 hi
    exact ⟨0, _, rfl, rfl, .numeral⟩
  | @apply op left right a b pos ha hb iha ihb =>
    intro i t hi
    rw [postorder, ← ha.size_eq] at hi
    rcases List.mem_append.1 hi with hi | hi
    · exact areNodes_call (iha _) (ihb _) op.native.name pos i t hi
    · cases List.mem_singleton.1 hi
      exact ⟨0, _, rfl, rfl, .apply ha hb⟩

theorem Formula.IsRead.areNodes {f : Formula} {e : Expr} (h : f.IsRead e) :
    Term.AreNodes f.terms 0 e := by
  cases h with
  | term h => exact h.areNodes 0
  | @comparison c left right a b pos ha hb =>
    rw [terms, ← ha.size_eq]
    exact Term.areNodes_call (ha.areNodes _) (hb.areNodes _) c.native.name pos

theorem Expr.Lowered.exists_of_call_two {p : Program} {id : Nat} {name : Bytes} {a b : Expr}
    {pos : Position} {chunks : List Chunk} (h : Lowered id (.call name [a, b] pos) chunks)
    (hp : p.Fits id chunks) :
    ∃ first second, Lowered (id + 1) a first ∧ p.Fits (id + 1) first ∧
      Lowered (id + 1 + a.size) b second ∧ p.Fits (id + 1 + a.size) second ∧
      p.chunk? id = some (some (.onLine id pos.line
        [.push (id + 1 : Nat), .push (id + 1 + a.size : Nat), .lookup name, .call 2])) := by
  cases h with
  | call hname hargs =>
    cases hargs with
    | @cons _ ids _ _ first rest hfirst hrest =>
      cases hrest with
      | @cons _ ids _ _ second rest hsecond hnil =>
        cases hnil
        rw [hfirst.length_eq] at hsecond hp
        have hfits := hp.tail.append_right.append_left
        rw [hfirst.length_eq] at hfits
        exact ⟨first, second, hfirst, hp.tail.append_left, hsecond, hfits, hp.head⟩

theorem Term.depth_pos (t : Term) : 0 < t.depth := by
  cases t with
  | numeral n => exact Nat.one_pos
  | apply op left right => exact Nat.succ_pos _

theorem Native.arity_of_mem_arithmetic {n : Native} (h : n ∈ arithmetic) : n.arity = 2 := by
  simp only [arithmetic, List.mem_cons, List.not_mem_nil, or_false] at h
  rcases h with rfl | rfl | rfl | rfl | rfl <;> rfl

namespace Context

variable {ctx : Context} {p : Program}

/-- The code of the tree calculates the term wherever enough frames are left. -/
def CalculatesTerm (ctx : Context) (p : Program) (t : Term) (e : Expr) : Prop :=
  ∀ {id depth : Nat} {chunks : List Chunk}, e.Lowered id chunks → p.Fits id chunks →
    depth + t.depth ≤ ctx.maxFrames + 1 →
      ctx.Calculates depth id (t.postorder id) (Value.Denotes t.exact)

section

variable (hctx : ctx.program = some p) (hlimit : ctx.limit = 0)
  (hn : ∀ n ∈ Native.arithmetic, ctx.natives.callable? n.name = some n)

include hctx hlimit hn

theorem calculates_binary {native : Native} (hnative : native ∈ Native.arithmetic)
    {left right : Term} {a b : Expr} (hsize : a.size = left.size)
    (ha : ctx.CalculatesTerm p left a) (hb : ctx.CalculatesTerm p right b) {pos : Position}
    {id depth : Nat} {chunks : List Chunk}
    (hl : Expr.Lowered id (.call native.name [a, b] pos) chunks) (hp : p.Fits id chunks)
    (hroom : depth + (max left.depth right.depth + 1) ≤ ctx.maxFrames + 1)
    {own : List (Nat × Term)} {R : Value → Prop}
    (hreply : ∀ m x y (site : Site), x.Denotes left.exact → y.Denotes right.exact →
      site.chunk = id → ((native.handler m [x, y]).2.ending site).Settles own R) :
    ctx.Calculates depth id
      (left.postorder (id + 1) ++ right.postorder (id + 1 + left.size) ++ own) R := by
  have hpos := left.depth_pos
  obtain ⟨first, second, hla, hpa, hlb, hpb, hid⟩ := hl.exists_of_call_two hp
  rw [← chunk?_eq hctx] at hid
  rw [List.append_assoc, ← hsize]
  refine calculates_call hlimit (by omega) (Native.arity_of_mem_arithmetic hnative)
    (hn native hnative) hid ?_ ?_ hreply
  · exact ha hla hpa (by omega)
  · exact hb hlb hpb (by omega)

theorem calculates_term {t : Term} {e : Expr} (h : t.IsRead e) : ctx.CalculatesTerm p t e := by
  induction h with
  | @numeral n pos =>
    intro id depth chunks hl hp hroom
    cases hl
    have hcode : (Chunk.onLine id pos.line [.immediate (.number n)]).code.drop 0 =
        [.immediate (.number n)] := Chunk.code_onLine ..
    have hend := (getElem?_of_drop hcode).2
    refine ⟨_, (chunk?_eq hctx id).trans hp.head, ?_⟩
    intro w
    rw [activate, proceed_unlimited hlimit hcode (by intro id h; cases h)]
    dsimp only [perform]
    rw [ending_end hend]
    have hnumbers : ∀ t ∈ (Term.numeral n).postorder id, isNumber t.2.exact := by
      intro t ht
      cases List.mem_singleton.1 ht
      rw [Term.exact]
      exact isNumber_toNat n
    have hvalue : (Value.number n).Denotes (Term.numeral n).exact := ⟨n, rfl, rfl⟩
    exact .value hnumbers hvalue
  | @apply op left right a b pos ha hb iha ihb =>
    intro id depth chunks hl hp hroom
    exact calculates_binary hctx hlimit hn op.native_mem ha.size_eq iha ihb hl hp hroom
      fun m x y site hx hy hsite => op.settles_reply m hx hy hsite

theorem calculates_formula {f : Formula} {e : Expr} (h : f.IsRead e) {chunks : List Chunk}
    (hl : e.Lowered 0 chunks) (hp : p.Fits 0 chunks) (hroom : f.depth ≤ ctx.maxFrames) :
    ctx.Calculates 1 0 f.terms f.HasValue := by
  cases h with
  | @term t e h =>
    rw [Formula.depth] at hroom
    exact calculates_term hctx hlimit hn h hl hp (by omega)
  | @comparison c left right a b pos ha hb =>
    have hreply : ∀ m x y (site : Site), x.Denotes left.exact → y.Denotes right.exact →
        site.chunk = (0 : Nat) → ((c.native.handler m [x, y]).2.ending site).Settles []
          (Formula.comparison c left right).HasValue := by
      rintro m - - site ⟨x, rfl, hx⟩ ⟨y, rfl, hy⟩ -
      rw [c.reply, hx, hy]
      exact .value (by simp) rfl
    have hroom' : 1 + (max left.depth right.depth + 1) ≤ ctx.maxFrames + 1 := by
      rw [Formula.depth] at hroom
      omega
    have hterms := calculates_binary hctx hlimit hn c.native_mem ha.size_eq
      (calculates_term hctx hlimit hn ha) (calculates_term hctx hlimit hn hb) hl hp hroom'
      hreply
    rwa [List.append_nil, Nat.zero_add] at hterms

end

end Context

namespace Machine

variable {m : Machine} {natives : Registry} {p : Program}

theorem runEntries_singleton {id : Int} {chunk : Option Chunk} (hc : p.chunk? id = some chunk)
    (last : Value) : m.runEntries natives p last [id] = m.execute natives chunk := by
  rw [runEntries, hc]
  dsimp only
  generalize m.execute natives chunk = r
  obtain ⟨mid, outcome⟩ := r
  cases outcome with
  | value | error | crash => rfl

/-- The run of a program of one formula settles its terms. -/
theorem settles_run (hlimit : m.limit = 0)
    (hn : ∀ n ∈ Native.arithmetic, natives.callable? n.name = some n) {f : Formula} {e : Expr}
    (h : f.IsRead e) (hp : compile [e] = .ok p) (hroom : f.depth ≤ m.maxFrames) :
    ∃ r : Ending, r.Settles f.terms f.HasValue ∧ (m.run natives (some p)).2 = r.outcome := by
  obtain ⟨ids, chunks, hl, hprogram⟩ := loweredAll_of_compile hp
  cases hl with
  | @cons _ ids _ _ chunks rest he hrest =>
    cases hrest
    rw [List.append_nil] at hprogram
    have hfits : p.Fits 0 chunks := hprogram ▸ fits_map_some chunks _
    have hentries : p.entries = [((0 : Nat) : Int)] := by
      rw [hprogram]
      rfl
    obtain ⟨c, hc, hsettles⟩ :=
      @Context.calculates_formula ((m.load (some p)).context natives) p rfl hlimit hn f e h chunks
        he hfits hroom
    rw [Context.chunk?_eq rfl] at hc
    refine ⟨_, hsettles ⟨m.globals, m.console, 0⟩, ?_⟩
    unfold run
    dsimp only
    rw [hentries, runEntries_singleton hc, execute_eq]
    rfl

end Machine

namespace Interpreter

/-- Arithmetic is exact or refused. A formula that is not nested too deeply evaluates to its exact
value if all its terms are in range; otherwise the first term in postorder that is out of range is
refused, in the chunk of its node. -/
theorem eval_formula (it : Interpreter) {natives : Registry}
    (hn : ∀ n ∈ Native.arithmetic, natives.callable? n.name = some n)
    (hlimit : it.machine.limit = 0) (f : Formula) (hdepth : f.depth ≤ it.machine.maxFrames) :
    f.IsSource f.text ∧ ∀ source, f.IsSource source →
      match f.excess? with
      | none => ∃ v, (it.eval natives source).2 = .value v ∧ f.HasValue v
      | some (id, t) => ∃ e form p node, (it.eval natives source).2 = .error .null (.run e) ∧
          e.cause.family = .typeMismatch ∧ e.site.chunk = id ∧
          parse source = .ok [form] ∧ compile [form] = .ok p ∧ form.nodes[id]? = some node ∧
          p.chunks[id]? = some (some (node.chunkAt id)) ∧ t.IsRead node := by
  refine ⟨f.isSource_text, ?_⟩
  intro source hsource
  obtain ⟨ts, form, htokens, hparse, hform⟩ := hsource.exists_parse
  obtain ⟨p, hp⟩ := compile_of_areProper (areProper_of_parse hparse)
  obtain ⟨dump, heval⟩ := @exists_eval_of_parse it natives p source [form] ts htokens hparse hp
  obtain ⟨ending, hsettles, hrun⟩ := Machine.settles_run hlimit hn hform hp hdepth
  rw [heval, hrun]
  cases hsettles with
  | @value v hterms hv =>
    have hnone : f.excess? = none := by
      unfold Formula.excess?
      rw [List.find?_eq_none]
      intro t ht
      simp [hterms t ht]
    rw [hnone]
    exact ⟨v, rfl, hv⟩
  | @refusal before after id t detail site sites stack hterms hbefore ht hsite =>
    have hsome : f.excess? = some (id, t) := by
      unfold Formula.excess?
      rw [List.find?_eq_some_iff_append]
      refine ⟨by simpa using ht, before, after, hterms, ?_⟩
      intro u hu
      simp [hbefore u hu]
    have hmem : (id, t) ∈ f.terms := by
      rw [hterms]
      exact List.mem_append_right before List.mem_cons_self
    obtain ⟨k, node, hk, hnode, hread⟩ := hform.areNodes id t hmem
    obtain rfl : id = k := hk.trans (Nat.zero_add k)
    have hall : Expr.nodesAll [form] = form.nodes := List.append_nil _
    have hchunk : p.chunks[id]? = some (some (node.chunkAt id)) :=
      (getElem?_chunks_eq_some_iff hp).2 ⟨node, hall ▸ hnode, rfl⟩
    rw [hsome]
    exact ⟨_, form, p, node, rfl, rfl, hsite, hparse, hp, hnode, hchunk, hread⟩

/-- The difference is in range, but its minuend is not. -/
theorem eval_formula_wide_minuend :
    let wide : Term := .apply .multiply (.numeral 4294967296) (.numeral 4294967296)
    let f : Formula :=
      .comparison .less (.numeral 18446744073709551614) (.apply .subtract wide (.numeral 1))
    let it : Interpreter := { machine := { maxFrames := 4 } }
    f.depth = it.machine.maxFrames ∧ f.excess? = some (3, wide) ∧
      ∃ e, (it.eval .standard f.text).2 = .error .null (.run e) ∧
        e.cause.family = .typeMismatch ∧ e.site.chunk = 3 := by
  intro wide f it
  have hn : ∀ n ∈ Native.arithmetic, Registry.standard.callable? n.name = some n := by
    intro n h
    simp only [Native.arithmetic, List.mem_cons, List.not_mem_nil, or_false] at h
    rcases h with rfl | rfl | rfl | rfl | rfl <;> rfl
  have hdepth : f.depth = it.machine.maxFrames := rfl
  have hexcess : f.excess? = some (3, wide) := by decide +kernel
  obtain ⟨htext, heval⟩ := eval_formula it hn rfl f hdepth.le
  have hrefused := heval f.text htext
  rw [hexcess] at hrefused
  obtain ⟨e, form, p, node, hrun, hfamily, hsite, -⟩ := hrefused
  exact ⟨hdepth, hexcess, e, hrun, hfamily, hsite⟩

end Interpreter

end MiniScheme
