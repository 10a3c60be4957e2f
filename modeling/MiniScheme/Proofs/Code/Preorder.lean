import MiniScheme.Proofs.Code.Path

/-! The chunk table of a compiled program. It has one chunk per node, in preorder, and the pushes
are the parent-child relation of the trees. -/
namespace MiniScheme

def Op.target? : Op → Option Int
  | push id => some id
  | _ => none

def Chunk.targets (c : Chunk) : List Int :=
  c.code.filterMap Op.target?

/-- The operands of all pushes, with multiplicity. -/
def Program.targets (p : Program) : List Int :=
  p.chunks.flatMap fun c => c.elim [] Chunk.targets

namespace Expr

def parts : Expr → List Expr
  | define _ body _ => [body]
  | call _ args _ => args
  | empty _ | static .. | reference .. | foreign .. | missing => []

mutual

/-- The nodes of a tree in preorder, each as the subtree below it. -/
def nodes : Expr → List Expr
  | define name body pos => define name body pos :: nodes body
  | call name args pos => call name args pos :: nodesAll args
  | e => [e]

def nodesAll : List Expr → List Expr
  | [] => []
  | e :: es => nodes e ++ nodesAll es

end

/-- The preorder numbers of consecutive trees, the first being `id`. -/
def places (id : Nat) : List Expr → List Nat
  | [] => []
  | e :: es => id :: places (id + e.nodes.length) es

/-- At each index, the list of nodes continues with the nodes of the tree. -/
def StandAt (row : List Expr) (ids : List Nat) (es : List Expr) : Prop :=
  List.Forall₂ (fun n e => e.nodes <+: row.drop n) ids es

/-- The instructions of a node whose children have the numbers `ids`. -/
def ownCode (ids : List Nat) : Expr → List Op
  | static v _ => [.immediate v]
  | reference name _ => [.lookup name, .load]
  | define name _ _ => ids.map (fun (i : Nat) => Op.push i) ++ [.define name]
  | call name args _ =>
    ids.map (fun (i : Nat) => Op.push i) ++ [.lookup name, .call args.length]
  | empty _ | foreign .. | missing => []

def chunkAt (id : Nat) (e : Expr) : Chunk :=
  .onLine id e.pos.line (e.ownCode (places (id + 1) e.parts))

theorem nodes_eq (e : Expr) : e.nodes = e :: nodesAll e.parts := by
  cases e with
  | define name body pos => simp [nodes, nodesAll, parts]
  | _ => rfl

mutual

theorem length_nodes (e : Expr) : e.nodes.length = e.size := by
  cases e with
  | define name body pos => rw [nodes, List.length_cons, length_nodes body, size]
  | call name args pos => rw [nodes, List.length_cons, length_nodesAll args, size]
  | _ => rfl

theorem length_nodesAll (es : List Expr) : (nodesAll es).length = sizeAll es := by
  cases es with
  | nil => rfl
  | cons e es => rw [nodesAll, List.length_append, length_nodes e, length_nodesAll es, sizeAll]

end

theorem le_of_mem_places {id n : Nat} {es : List Expr} (h : n ∈ places id es) : id ≤ n := by
  induction es generalizing id with
  | nil => cases h
  | cons e es ih =>
    rcases List.mem_cons.1 h with rfl | h
    · exact Nat.le_refl n
    · exact Nat.le_trans (Nat.le_add_right _ _) (ih h)

theorem pairwise_places (id : Nat) (es : List Expr) : (places id es).Pairwise (· < ·) := by
  induction es generalizing id with
  | nil => exact .nil
  | cons e es ih =>
    refine .cons ?_ (ih _)
    intro n hn
    have hle := le_of_mem_places hn
    have hpos : 0 < e.nodes.length := by simp [nodes_eq]
    omega

theorem standAt_places (before after : List Expr) (es : List Expr) :
    StandAt (before ++ (nodesAll es ++ after)) (places before.length es) es := by
  induction es generalizing before with
  | nil => exact .nil
  | cons e es ih =>
    rw [nodesAll, List.append_assoc]
    refine .cons ?_ ?_
    · rw [List.drop_left]
      exact List.prefix_append _ _
    · have hrest := ih (before ++ e.nodes)
      rwa [List.append_assoc, List.length_append] at hrest

mutual

theorem exists_of_mem_nodes {i : Nat} {node : Expr} (e : Expr) (h : e.nodes[i]? = some node) :
    ∃ before after, e.nodes = before ++ (node.nodes ++ after) ∧ before.length = i := by
  cases i with
  | zero =>
    rw [nodes_eq] at h
    cases h
    exact ⟨[], [], (List.append_nil _).symm, rfl⟩
  | succ i =>
    cases e with
    | define name body pos =>
      obtain ⟨before, after, hnodes, rfl⟩ := exists_of_mem_nodes body h
      exact ⟨define name body pos :: before, after, by rw [nodes, hnodes]; rfl, rfl⟩
    | call name args pos =>
      obtain ⟨before, after, hnodes, rfl⟩ := exists_of_mem_nodesAll args h
      exact ⟨call name args pos :: before, after, by rw [nodes, hnodes]; rfl, rfl⟩
    | empty | static | reference | foreign | missing => cases h

theorem exists_of_mem_nodesAll {i : Nat} {node : Expr} (es : List Expr)
    (h : (nodesAll es)[i]? = some node) :
    ∃ before after, nodesAll es = before ++ (node.nodes ++ after) ∧ before.length = i := by
  cases es with
  | nil => cases h
  | cons e es =>
    rw [nodesAll] at h ⊢
    rcases Nat.lt_or_ge i e.nodes.length with hlt | hge
    · rw [List.getElem?_append_left hlt] at h
      obtain ⟨before, after, hnodes, hlen⟩ := exists_of_mem_nodes e h
      refine ⟨before, after ++ nodesAll es, ?_, hlen⟩
      rw [hnodes, List.append_assoc, List.append_assoc]
    · rw [List.getElem?_append_right hge] at h
      obtain ⟨before, after, hnodes, hlen⟩ := exists_of_mem_nodesAll es h
      refine ⟨e.nodes ++ before, after, ?_, ?_⟩
      · rw [hnodes, List.append_assoc]
      · rw [List.length_append, hlen, Nat.add_sub_cancel' hge]

end

theorem standAt_parts {forms : List Expr} {i : Nat} {node : Expr}
    (h : (nodesAll forms)[i]? = some node) :
    StandAt (nodesAll forms) (places (i + 1) node.parts) node.parts := by
  obtain ⟨before, after, hnodes, rfl⟩ := exists_of_mem_nodesAll forms h
  have hstand := standAt_places (before ++ [node]) after node.parts
  rw [List.length_append, List.length_singleton] at hstand
  rw [hnodes, nodes_eq]
  simpa using hstand

mutual

/-- The code of a tree is that of its nodes, one chunk each. -/
theorem Lowered.eq_mapIdx {id : Nat} {e : Expr} {chunks : List Chunk} (h : Lowered id e chunks) :
    chunks = e.nodes.mapIdx fun i node => node.chunkAt (id + i) := by
  cases h with
  | empty | static | reference hn => rfl
  | @define _ name body pos inner hn hb =>
    have hinner := hb.eq_mapIdx
    rw [nodes, List.mapIdx_cons, hinner]
    simp only [Nat.add_assoc, Nat.add_comm 1]
    rfl
  | @call _ ids name args pos inner hn ha =>
    obtain ⟨hids, hinner⟩ := ha.eq_mapIdx
    rw [nodes, List.mapIdx_cons, hinner, hids]
    simp only [Nat.add_assoc, Nat.add_comm 1]
    rfl

theorem LoweredAll.eq_mapIdx {id : Nat} {es : List Expr} {ids : List Nat} {chunks : List Chunk}
    (h : LoweredAll id es ids chunks) :
    ids = places id es ∧ chunks = (nodesAll es).mapIdx fun i node => node.chunkAt (id + i) := by
  cases h with
  | nil => exact ⟨rfl, rfl⟩
  | @cons _ ids e es first rest he hes =>
    have hfirst := he.eq_mapIdx
    obtain ⟨hids, hrest⟩ := hes.eq_mapIdx
    have hlen : first.length = e.nodes.length := by rw [hfirst, List.length_mapIdx]
    rw [hlen] at hids hrest
    constructor
    · rw [places, hids]
    · rw [nodesAll, List.mapIdx_append, ← hfirst, hrest]
      simp only [Nat.add_assoc, Nat.add_comm e.nodes.length]

end

end Expr

/-- A compiled program as a function of its trees. -/
theorem eq_of_compile {forms : List Expr} {p : Program} (h : compile forms = .ok p) :
    p = ⟨((Expr.nodesAll forms).mapIdx Expr.chunkAt).map some,
      (Expr.places 0 forms).map fun (n : Nat) => (n : Int)⟩ := by
  obtain ⟨ids, chunks, hl, rfl⟩ := loweredAll_of_compile h
  obtain ⟨rfl, rfl⟩ := hl.eq_mapIdx
  simp only [Nat.zero_add]

namespace Chunk

@[simp] theorem targets_onLine (id line : Int) (ops : List Op) :
    (onLine id line ops).targets = ops.filterMap Op.target? := by
  unfold targets
  rw [code_onLine]

theorem filterMap_target?_pushes (ids : List Nat) :
    (ids.map fun (i : Nat) => Op.push i).filterMap Op.target? =
      ids.map fun (i : Nat) => (i : Int) := by
  rw [List.filterMap_map]
  exact congrFun (List.filterMap_eq_map (f := fun (i : Nat) => (i : Int))) ids

theorem lineAt_onLine (id line : Int) {ops : List Op} {k : Nat} (h : k < ops.length) :
    lineAt (onLine id line ops).lines k = line :=
  congrArg Site.line (siteAt_onLine id line h)

end Chunk

namespace Expr

/-- A node pushes exactly its children. -/
theorem targets_chunkAt (id : Nat) (e : Expr) :
    (e.chunkAt id).targets = (places (id + 1) e.parts).map fun (n : Nat) => (n : Int) := by
  unfold chunkAt
  rw [Chunk.targets_onLine]
  cases e with
  | empty | static | reference | foreign | missing => rfl
  | define name body pos | call name args pos =>
    rw [ownCode, List.filterMap_append, Chunk.filterMap_target?_pushes]
    exact List.append_nil _

mutual

/-- Every chunk of a tree except the first is the operand of exactly one push among them. -/
theorem Lowered.perm_targets {id : Nat} {e : Expr} {chunks : List Chunk}
    (h : Lowered id e chunks) :
    ((id : Int) :: chunks.flatMap Chunk.targets).Perm
      ((List.range' id e.size).map fun (n : Nat) => (n : Int)) := by
  cases h with
  | empty | static | reference hn => exact .refl _
  | @define _ name body pos inner hn hb =>
    have hinner := hb.perm_targets
    rw [size, List.range'_succ, List.map_cons, List.flatMap_cons, Chunk.targets_onLine]
    exact hinner.cons _
  | @call _ ids name args pos inner hn ha =>
    have hinner := ha.perm_targets
    rw [size, List.range'_succ, List.map_cons, List.flatMap_cons, Chunk.targets_onLine,
      List.filterMap_append, Chunk.filterMap_target?_pushes, List.append_assoc]
    exact hinner.cons _

theorem LoweredAll.perm_targets {id : Nat} {es : List Expr} {ids : List Nat} {chunks : List Chunk}
    (h : LoweredAll id es ids chunks) :
    (ids.map (fun (n : Nat) => (n : Int)) ++ chunks.flatMap Chunk.targets).Perm
      ((List.range' id (sizeAll es)).map fun (n : Nat) => (n : Int)) := by
  cases h with
  | nil => exact .refl _
  | @cons _ ids e es first rest he hes =>
    have hfirst := he.perm_targets
    have hrest := hes.perm_targets
    rw [he.length_eq] at hrest
    rw [sizeAll, ← List.range'_append_1, List.map_append, List.map_cons, List.flatMap_append,
      List.cons_append]
    have hswap := (List.perm_append_comm_assoc (ids.map fun (n : Nat) => (n : Int))
      (first.flatMap Chunk.targets) (rest.flatMap Chunk.targets)).cons (id : Int)
    exact hswap.trans (hfirst.append hrest)

end

end Expr

/-- The entries and the push operands are a permutation of the chunks. -/
theorem perm_of_compile {forms : List Expr} {p : Program} (h : compile forms = .ok p) :
    (p.entries ++ p.targets).Perm
      ((List.range' 0 (Expr.nodesAll forms).length).map fun (n : Nat) => (n : Int)) := by
  obtain ⟨ids, chunks, hl, rfl⟩ := loweredAll_of_compile h
  have htargets : Program.targets ⟨chunks.map some, ids.map fun (n : Nat) => (n : Int)⟩ =
      chunks.flatMap Chunk.targets := by
    unfold Program.targets
    rw [List.flatMap_map]
    rfl
  rw [htargets, Expr.length_nodesAll]
  exact hl.perm_targets

/-- A compiled program has one chunk per node, in preorder. The chunk at each index has that index
as its number and the instructions of its node, all on the line of the node; it pushes the chunks of
the children in order, which have greater indices. The entries are the chunks of the forms, in
order. No entry is pushed, and every other chunk is the operand of exactly one push. -/
theorem compile_preorder {forms : List Expr} {p : Program} (h : compile forms = .ok p) :
    let row := Expr.nodesAll forms
    p.chunks.length = row.length ∧
      (∀ i node, row[i]? = some node →
        let ids := Expr.places (i + 1) node.parts
        ∃ c, p.chunk? (i : Int) = some (some c) ∧ c.id = i ∧ c.code = node.ownCode ids ∧
          (∀ k < c.code.length, lineAt c.lines (k : Nat) = node.pos.line) ∧
          c.targets = ids.map (fun (n : Nat) => (n : Int)) ∧
          Expr.StandAt row ids node.parts ∧ ∀ n ∈ ids, i < n) ∧
      p.entries = (Expr.places 0 forms).map (fun (n : Nat) => (n : Int)) ∧
      Expr.StandAt row (Expr.places 0 forms) forms ∧ p.entries.Pairwise (· < ·) ∧
      ∀ j : Nat, j < p.chunks.length →
        (j : Int) ∈ p.entries ∧ p.targets.count (j : Int) = 0 ∨
          (j : Int) ∉ p.entries ∧ p.targets.count (j : Int) = 1 := by
  intro row
  have hperm := perm_of_compile h
  have hp := eq_of_compile h
  have hlen : p.chunks.length = row.length := by rw [hp, List.length_map, List.length_mapIdx]
  have hentries : p.entries = (Expr.places 0 forms).map (fun (n : Nat) => (n : Int)) := by rw [hp]
  refine ⟨hlen, ?_, hentries, ?_, ?_, ?_⟩
  · intro i node hnode ids
    have hchunk : p.chunk? (i : Int) = some (some (node.chunkAt i)) := by
      rw [Program.chunk?_natCast, hp, List.getElem?_map, List.getElem?_mapIdx, hnode]
      rfl
    have hcode : (node.chunkAt i).code = node.ownCode ids := Chunk.code_onLine ..
    refine ⟨node.chunkAt i, hchunk, Chunk.id_onLine .., hcode, ?_, Expr.targets_chunkAt i node,
      Expr.standAt_parts hnode, fun n hn => Expr.le_of_mem_places hn⟩
    intro k hk
    rw [hcode] at hk
    exact Chunk.lineAt_onLine _ _ hk
  · have hstand := Expr.standAt_places [] [] forms
    rwa [List.append_nil] at hstand
  · rw [hentries]
    exact (Expr.pairwise_places 0 forms).map _ fun _ _ => Int.ofNat_lt.2
  · intro j hj
    rw [hlen] at hj
    have hcount := hperm.count_eq (j : Int)
    have hmem : j ∈ List.range' 0 row.length := by simpa using hj
    have honce : ((List.range' 0 row.length).map fun (n : Nat) => (n : Int)).count (j : Int) = 1 :=
      (List.count_map_of_injective _ (fun (n : Nat) => (n : Int)) Int.ofNat_injective j).trans
        (List.count_eq_one_of_mem (List.nodup_range' 1) hmem)
    rw [honce, List.count_append] at hcount
    by_cases hentry : (j : Int) ∈ p.entries
    · have hpos := List.count_pos_iff.2 hentry
      exact .inl ⟨hentry, by omega⟩
    · have hzero := List.count_eq_zero.2 hentry
      exact .inr ⟨hentry, by omega⟩

/-- Two equal arguments have separate chunks. -/
theorem compile_preorder_twin_arguments :
    let one : Expr := .static (.number 1) { line := 1 }
    let pair : Expr := .call (ascii "cons") [one, one] { line := 1 }
    let forms : List Expr := [.define (ascii "x") pair {}, .reference (ascii "x") { line := 2 }]
    ∃ p, compile forms = .ok p ∧ p.chunks.length = 5 ∧ p.entries = [0, 4] ∧
      (∃ c, p.chunk? 1 = some (some c) ∧ c.id = 1 ∧
        c.code = [.push 2, .push 3, .lookup (ascii "cons"), .call 2] ∧ c.targets = [2, 3] ∧
        lineAt c.lines 3 = 1) ∧
      p.targets.count 3 = 1 ∧ p.targets.count 4 = 0 := by
  intro one pair forms
  obtain ⟨p, hp⟩ : ∃ p, compile forms = .ok p := ⟨_, rfl⟩
  obtain ⟨hlen, hchunks, hentries, -, -, hpushed⟩ := compile_preorder hp
  obtain ⟨c, hc, hid, hcode, hlines, htargets, -, -⟩ := hchunks 1 pair rfl
  have hline : lineAt c.lines 3 = 1 := hlines 3 (by rw [hcode]; decide)
  refine ⟨p, hp, hlen, hentries, ⟨c, hc, hid, hcode, htargets, hline⟩, ?_, ?_⟩
  · rcases hpushed 3 (by rw [hlen]; decide) with ⟨hmem, -⟩ | ⟨-, hcount⟩
    · rw [hentries] at hmem
      exact absurd hmem (by decide)
    · exact hcount
  · rcases hpushed 4 (by rw [hlen]; decide) with ⟨-, hcount⟩ | ⟨hmem, -⟩
    · exact hcount
    · rw [hentries] at hmem
      exact absurd (by decide) hmem

end MiniScheme
