import MiniScheme.Proofs.Code.Placement
import MiniScheme.Proofs.Code.Preorder

/-! Code of relocated trees. The positions of a tree affect only the lines of its code. -/
namespace MiniScheme

/-- The site without its line. -/
def Site.unlined (s : Site) : Site :=
  { s with line := -1 }

namespace Expr

variable (f : Position → Position)

theorem parts_relocate (e : Expr) : (e.relocate f).parts = relocateAll f e.parts := by
  cases e <;> rfl

mutual

theorem nodes_relocate (e : Expr) : (e.relocate f).nodes = e.nodes.map (relocate f) := by
  cases e with
  | define name body pos =>
    rw [relocate, nodes, nodes_relocate body, nodes, List.map_cons, relocate]
  | call name args pos =>
    rw [relocate, nodes, nodesAll_relocate args, nodes, List.map_cons, relocate]
  | empty | static | reference | foreign | missing => rfl

theorem nodesAll_relocate (es : List Expr) :
    nodesAll (relocateAll f es) = (nodesAll es).map (relocate f) := by
  cases es with
  | nil => rfl
  | cons e es =>
    rw [relocateAll, nodesAll, nodes_relocate e, nodesAll_relocate es, nodesAll, List.map_append]

end

theorem places_relocate (id : Nat) (es : List Expr) :
    places id (relocateAll f es) = places id es := by
  induction es generalizing id with
  | nil => rfl
  | cons e es ih => rw [relocateAll, places, nodes_relocate, List.length_map, ih, places]

theorem ownCode_relocate (ids : List Nat) (e : Expr) :
    (e.relocate f).ownCode ids = e.ownCode ids := by
  cases e with
  | call name args pos => rw [relocate, ownCode, length_relocateAll, ownCode]
  | empty | static | reference | define | foreign | missing => rfl

theorem code_chunkAt_relocate (id : Nat) (e : Expr) :
    ((e.relocate f).chunkAt id).code = (e.chunkAt id).code := by
  unfold chunkAt
  rw [Chunk.code_onLine, Chunk.code_onLine, parts_relocate, places_relocate, ownCode_relocate]

end Expr

theorem getElem?_chunks_eq_some_iff {forms : List Expr} {p : Program} (h : compile forms = .ok p)
    {n : Nat} {c : Option Chunk} :
    p.chunks[n]? = some c ↔
      ∃ node, (Expr.nodesAll forms)[n]? = some node ∧ some (node.chunkAt n) = c := by
  rw [eq_of_compile h]
  simp [List.getElem?_mapIdx, Option.map_map]

section

variable {f : Position → Position} {es fs : List Expr} {p q : Program}

/-- Trees that differ only in positions have code that differs only in lines. -/
theorem corresponds_of_relocateAll (h : Expr.relocateAll f fs = Expr.relocateAll f es)
    (hp : compile es = .ok p) (hq : compile fs = .ok q) (hes : Expr.areSolid es) :
    p.Corresponds 0 .unlined .unlined q where
  chunk := by
    intro id c hc
    obtain ⟨n, rfl, hn⟩ := Program.exists_natCast_of_chunk? hc
    obtain ⟨node, hnode, hchunk⟩ := (getElem?_chunks_eq_some_iff hp).1 hn
    cases hchunk
    have hnodes : (Expr.nodesAll fs).map (Expr.relocate f) =
        (Expr.nodesAll es).map (Expr.relocate f) := by
      rw [← Expr.nodesAll_relocate, h, Expr.nodesAll_relocate]
    have hmoved : ((Expr.nodesAll fs).map (Expr.relocate f))[n]? = some (node.relocate f) := by
      rw [hnodes, List.getElem?_map, hnode]
      rfl
    rw [List.getElem?_map] at hmoved
    obtain ⟨node', hnode', hsame⟩ := Option.map_eq_some_iff.1 hmoved
    have hcode : (node'.chunkAt n).code = (node.chunkAt n).code := by
      rw [← Expr.code_chunkAt_relocate f, hsame, Expr.code_chunkAt_relocate]
    refine ⟨node'.chunkAt n, ?_, ?_, ?_⟩
    · rw [Int.natCast_zero, Int.add_zero, Program.chunk?_natCast]
      exact (getElem?_chunks_eq_some_iff hq).2 ⟨node', hnode', rfl⟩
    · rw [hcode, funext Op.relocate_zero, List.map_id']
    · intro i hi
      have hid (e : Expr) : (e.chunkAt n).id = n := Chunk.id_onLine _ _ _
      unfold Chunk.siteAt Site.unlined
      rw [hid, hid]
  closed := exists_chunk_of_push hp hes

theorem entries_eq_of_relocateAll (h : Expr.relocateAll f fs = Expr.relocateAll f es)
    (hp : compile es = .ok p) (hq : compile fs = .ok q) : q.entries = p.entries := by
  have hplaces : Expr.places 0 fs = Expr.places 0 es := by
    rw [← Expr.places_relocate f, h, Expr.places_relocate]
  rw [eq_of_compile hp, eq_of_compile hq, hplaces]

end

end MiniScheme
