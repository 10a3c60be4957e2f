import MiniScheme.Proofs.Code.Cost
import MiniScheme.Proofs.Machine.Traceback

/-! Errors of compiled programs in terms of the source. Each chunk is a node of a tree and pushes
its children, so the stack of an error is a path from the node whose instruction failed to the
top-level form. -/
namespace MiniScheme

theorem Chunk.id_onLine (id line : Int) (ops : List Op) : (onLine id line ops).id = id := by
  have hfold (c : Chunk) : (ops.foldl (fun c op => c.emit op line) c).id = c.id := by
    induction ops generalizing c with
    | nil => rfl
    | cons op ops ih => exact ih (c.emit op line)
  exact hfold { id }

namespace Expr

/-- `IsPart outer inner`: `inner` is a child of `outer`. A node is a tree with its number in
preorder. -/
inductive IsPart : Nat × Expr → Nat × Expr → Prop where
  | body {id : Nat} {name : Bytes} {body : Expr} {pos : Position} :
      IsPart (id, .define name body pos) (id + 1, body)
  | arg {id : Nat} {name : Bytes} {front back : List Expr} {arg : Expr} {pos : Position} :
      IsPart (id, .call name (front ++ arg :: back) pos) (id + 1 + sizeAll front, arg)

mutual

theorem Lowered.id_eq {id : Nat} {e : Expr} {chunks : List Chunk} (h : Lowered id e chunks)
    {i : Nat} {c : Chunk} (hc : chunks[i]? = some c) : c.id = (id + i : Nat) := by
  cases h with
  | empty | static | reference hn =>
    obtain ⟨rfl, rfl⟩ : i = 0 ∧ _ := by
      cases i with
      | zero => exact ⟨rfl, Option.some.inj hc⟩
      | succ i => cases hc
    exact Chunk.id_onLine ..
  | define hn hb =>
    cases i with
    | zero => cases hc; exact Chunk.id_onLine ..
    | succ i => rw [hb.id_eq hc, Nat.add_right_comm, Nat.add_assoc]
  | call hn ha =>
    cases i with
    | zero => cases hc; exact Chunk.id_onLine ..
    | succ i => rw [ha.id_eq hc, Nat.add_right_comm, Nat.add_assoc]

theorem LoweredAll.id_eq {id : Nat} {es : List Expr} {ids : List Nat} {chunks : List Chunk}
    (h : LoweredAll id es ids chunks) {i : Nat} {c : Chunk} (hc : chunks[i]? = some c) :
    c.id = (id + i : Nat) := by
  cases h with
  | nil => cases hc
  | @cons _ _ _ _ first rest he hes =>
    rcases Nat.lt_or_ge i first.length with hlt | hge
    · rw [List.getElem?_append_left hlt] at hc
      exact he.id_eq hc
    · rw [List.getElem?_append_right hge] at hc
      rw [hes.id_eq hc, Nat.add_assoc, Nat.add_sub_cancel' hge]

end

variable {p : Program}

theorem LoweredAll.lowered_of_getElem? {id : Nat} {es : List Expr} {ids : List Nat}
    {chunks : List Chunk} (h : LoweredAll id es ids chunks) (hp : p.Fits id chunks) {k n : Nat}
    (hn : ids[k]? = some n) :
    ∃ front e back first, es = front ++ e :: back ∧ front.length = k ∧ n = id + sizeAll front ∧
      Lowered n e first ∧ p.Fits n first := by
  induction es generalizing id ids chunks k with
  | nil => cases h; cases hn
  | cons e es ih =>
    cases h with
    | @cons _ ids _ _ first rest he hes =>
      cases k with
      | zero =>
        cases hn
        exact ⟨[], e, es, first, rfl, rfl, rfl, he, hp.append_left⟩
      | succ k =>
        obtain ⟨front, e', back, first', rfl, hk, hplace, he', hp'⟩ := ih hes hp.append_right hn
        refine ⟨e :: front, e', back, first', rfl, congrArg Nat.succ hk, ?_, he', hp'⟩
        rw [hplace, he.length_eq, Nat.add_assoc]
        rfl

theorem Lowered.exists_head {id : Nat} {e : Expr} {chunks : List Chunk} (h : Lowered id e chunks) :
    ∃ ops rest, chunks = .onLine id e.pos.line ops :: rest := by
  cases h with
  | empty | static | reference hn | define hn hb | call hn ha => exact ⟨_, _, rfl⟩

/-- The first chunk of a tree pushes the children of the tree. -/
theorem Lowered.exists_part {id : Nat} {e : Expr} {chunks : List Chunk} (h : Lowered id e chunks)
    (hp : p.Fits id chunks) {c : Chunk} (hc : p.chunk? id = some (some c)) {target : Int}
    (hop : Op.push target ∈ c.code) :
    ∃ n part inner, target = (n : Nat) ∧ IsPart (id, e) (n, part) ∧ Lowered n part inner ∧
      p.Fits n inner := by
  cases h with
  | empty =>
    cases hp.head.symm.trans hc
    cases hop
  | static =>
    cases hp.head.symm.trans hc
    simp at hop
  | reference hn =>
    cases hp.head.symm.trans hc
    simp at hop
  | @define _ name body pos inner hn hb =>
    cases hp.head.symm.trans hc
    obtain rfl : target = (id + 1 : Nat) := by simpa using hop
    exact ⟨id + 1, body, inner, rfl, .body, hb, hp.tail⟩
  | @call _ ids name args pos inner hn ha =>
    cases hp.head.symm.trans hc
    obtain ⟨n, hn, rfl⟩ : ∃ n ∈ ids, (n : Int) = target := by simpa using hop
    obtain ⟨k, hk⟩ := List.mem_iff_getElem?.1 hn
    obtain ⟨front, arg, back, first, rfl, -, rfl, harg, hfits⟩ :=
      ha.lowered_of_getElem? hp.tail hk
    exact ⟨_, arg, first, rfl, .arg, harg, hfits⟩

theorem Lowered.line_eq {id : Nat} {e : Expr} {chunks : List Chunk} (h : Lowered id e chunks)
    (hp : p.Fits id chunks) {s : Site} (hs : p.Locates s) (hid : s.chunk = id) :
    s.line = e.pos.line := by
  obtain ⟨ops, rest, rfl⟩ := h.exists_head
  obtain ⟨c, hc, hnonneg, hlt, hline⟩ := hs
  rw [hid] at hc
  cases hp.head.symm.trans hc
  rw [Chunk.code_onLine] at hlt
  obtain ⟨i, hi⟩ := Int.eq_ofNat_of_zero_le hnonneg
  rw [hi] at hlt hline
  have hsite := Chunk.siteAt_onLine id e.pos.line (Int.ofNat_lt.1 hlt)
  rw [hline]
  exact congrArg Site.line hsite

def Shows (path : List (Nat × Expr)) (stack : List Site) : Prop :=
  stack.map (fun s => (s.chunk, s.line)) =
    path.map fun node => ((node.1 : Int), node.2.pos.line)

/-- A chain of calls that ends in the first chunk of a tree is a path in the tree. By induction, the
path of the callers exists already, and the node of the innermost site is a child of its first
node. -/
theorem Lowered.exists_path {id : Nat} {e : Expr} {chunks : List Chunk} (h : Lowered id e chunks)
    (hp : p.Fits id chunks) {stack : List Site}
    (hcalls : stack.IsChain fun inner outer => p.Pushes outer inner.chunk)
    (hplaces : ∀ s ∈ stack, p.Locates s)
    (hbottom : stack.getLast?.map Site.chunk = some (id : Int)) :
    ∃ n node path inner, Shows ((n, node) :: path) stack ∧
      ((n, node) :: path).IsChain (fun inner outer => IsPart outer inner) ∧
      ((n, node) :: path).getLast? = some (id, e) ∧ Lowered n node inner ∧ p.Fits n inner := by
  induction stack with
  | nil => cases hbottom
  | cons s stack ih =>
    obtain ⟨hs, hplaces⟩ := List.forall_mem_cons.1 hplaces
    cases stack with
    | nil =>
      have hid : s.chunk = id := Option.some.inj hbottom
      have hline := h.line_eq hp hs hid
      refine ⟨id, e, [], chunks, ?_, List.isChain_singleton _, rfl, h, hp⟩
      simp [Shows, hid, hline]
    | cons outer rest =>
      obtain ⟨⟨c, hc, hop⟩, hcalls⟩ := List.isChain_cons_cons.1 hcalls
      rw [List.getLast?_cons_cons] at hbottom
      obtain ⟨n, node, path, inner, hshows, hchain, hlast, hnode, hfits⟩ :=
        ih hcalls hplaces hbottom
      obtain ⟨houter, -⟩ := List.cons.inj hshows
      have hn : outer.chunk = n := congrArg Prod.fst houter
      rw [hn] at hc
      obtain ⟨m, part, code, hm, hpart, hlowered, hcode⟩ :=
        hnode.exists_part hfits hc (List.mem_of_getElem? hop)
      have hline := hlowered.line_eq hcode hs hm
      refine ⟨m, part, (n, node) :: path, code, ?_, ?_, ?_, hlowered, hcode⟩
      · unfold Shows at hshows ⊢
        rw [List.map_cons, hshows, hm, hline]
        rfl
      · exact List.isChain_cons_cons.2 ⟨hpart, hchain⟩
      · rwa [List.getLast?_cons_cons]

end Expr

/-- Compiled programs are numbered. -/
theorem isNumbered_of_compile {forms : List Expr} {p : Program} (h : compile forms = .ok p) :
    p.IsNumbered := by
  obtain ⟨ids, chunks, hl, rfl⟩ := loweredAll_of_compile h
  intro i c hc
  rw [List.getElem?_map] at hc
  obtain ⟨chunk, hchunk, rfl⟩ := Option.map_eq_some_iff.1 hc
  refine ⟨chunk, rfl, ?_⟩
  rw [hl.id_eq hchunk, Nat.zero_add]

theorem lowered_of_entries {forms : List Expr} {p : Program} (h : compile forms = .ok p) {k : Nat}
    {id : Int} (hid : p.entries[k]? = some id) :
    ∃ form first, forms[k]? = some form ∧ id = (Expr.sizeAll (forms.take k) : Nat) ∧
      Expr.Lowered (Expr.sizeAll (forms.take k)) form first ∧
      p.Fits (Expr.sizeAll (forms.take k)) first := by
  obtain ⟨ids, chunks, hl, rfl⟩ := loweredAll_of_compile h
  rw [List.getElem?_map] at hid
  obtain ⟨n, hn, rfl⟩ := Option.map_eq_some_iff.1 hid
  have hfits := fits_map_some chunks (ids.map fun (i : Nat) => (i : Int))
  obtain ⟨front, form, back, first, rfl, rfl, hplace, hform, hp⟩ :=
    hl.lowered_of_getElem? hfits hn
  rw [Nat.zero_add] at hplace
  subst hplace
  rw [List.take_left]
  exact ⟨form, first, by simp, rfl, hform, hp⟩

namespace Machine

/-- The stack of an error that no native procedure passes on from a nested run. If the chunks are
numbered by their indices, the stack has one site for each open frame. It starts at the site of the
error and ends in the executed chunk; every site is that of an instruction, with its line, and each
instruction pushes the chunk of the site above it. In a compiled program these chunks are a path in
a tree, from the node whose instruction failed to the top-level form, with the lines of the
nodes. -/
theorem execute_explains {m : Machine} {natives : Registry} {p : Program} {id : Int} {c : Chunk}
    {v : Value} {e : RunError} (hm : m.program = some p) (hc : p.chunk? id = some (some c))
    (he : (m.execute natives (some c)).2 = .error v e)
    (hown : ∀ s, (m.context natives).Reaches (m.start c) s → ¬(m.context natives).Relays s e) :
    (p.IsNumbered → p.Explains id e ∧ ∃ s, (m.context natives).Reaches (m.start c) s ∧
      (m.context natives).step s = .halt ((m.context natives).run (m.start c)) ∧
      e.stack.length = s.depth) ∧
    ∀ forms k, compile forms = .ok p → p.entries[k]? = some id → ∃ form path,
      forms[k]? = some form ∧ path.getLast? = some (Expr.sizeAll (forms.take k), form) ∧
      path.IsChain (fun inner outer => Expr.IsPart outer inner) ∧ Expr.Shows path e.stack := by
  have hexplains (hnum : p.IsNumbered) := explains_of_execute hm hnum hc he hown
  refine ⟨hexplains, ?_⟩
  intro forms k hp hid
  obtain ⟨-, hbottom, hplaces, hcalls⟩ := (hexplains (isNumbered_of_compile hp)).1
  obtain ⟨form, first, hform, rfl, hlowered, hfits⟩ := lowered_of_entries hp hid
  obtain ⟨n, node, path, -, hshows, hchain, hlast, -⟩ :=
    hlowered.exists_path hfits hcalls hplaces hbottom
  exact ⟨form, (n, node) :: path, hform, hlast, hchain, hshows⟩

/-- The second argument of the second form refers to an unbound name, two lines further down. -/
theorem execute_explains_unbound_argument :
    let x : Expr := .reference (ascii "x") { line := 3 }
    let car : Expr := .call (ascii "car") [x] { line := 2 }
    let cons : Expr := .call (ascii "cons") [.empty { line := 1 }, car] { line := 1 }
    let forms : List Expr := [.static .eof {}, cons]
    let e : RunError := ⟨.unbound (ascii "x"), ⟨4, 3, 1⟩, [⟨4, 3, 1⟩, ⟨3, 2, 0⟩, ⟨1, 1, 1⟩]⟩
    ∃ p c, compile forms = .ok p ∧ p.chunk? 1 = some (some c) ∧ p.entries[1]? = some 1 ∧
      p.IsNumbered ∧
      let m : Machine := { program := some p }
      (m.execute .standard (some c)).2 = .error .null e ∧ p.Explains 1 e ∧
      ∃ path, path.getLast? = some (1, cons) ∧
        path.IsChain (fun inner outer => Expr.IsPart outer inner) ∧ Expr.Shows path e.stack := by
  intro x car cons forms e
  let c : Chunk := .onLine 1 1 [.push 2, .push 3, .lookup (ascii "cons"), .call 2]
  obtain ⟨p, hp⟩ : ∃ p, compile forms = .ok p := ⟨_, rfl⟩
  have hnum := isNumbered_of_compile hp
  cases hp
  refine ⟨_, c, rfl, rfl, rfl, hnum, ?_⟩
  intro m
  have he : (m.execute .standard (some c)).2 = .error .null e := by decide +kernel
  obtain ⟨hexplains, hpath⟩ := @execute_explains m .standard _ 1 c _ e rfl rfl he
    fun s _ => Context.not_relays_of_aloof Registry.aloof_standard s e
  obtain ⟨form, path, hform, hlast, hchain, hshows⟩ := hpath forms 1 rfl rfl
  cases hform
  exact ⟨he, (hexplains hnum).1, path, hlast, hchain, hshows⟩

end Machine

end MiniScheme
