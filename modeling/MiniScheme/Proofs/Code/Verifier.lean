import MiniScheme.Proofs.Code.Layout
import MiniScheme.Proofs.Expr.Evaluation
import MiniScheme.Proofs.Machine.Solid

/-! A bytecode verifier. It tracks how many values a frame holds and whether a name is pending, and
rejects code that can underflow or misuse either. Compiled programs are accepted. -/
namespace MiniScheme

/-- The abstract state of a frame: the number of its values, and whether a name is pending. -/
structure Holding where
  values : Nat := 0
  name : Bool := false
deriving DecidableEq, Repr

def Program.isOccupied (p : Program) (id : Int) : Bool :=
  (p.chunk? id).join.isSome

/-- The abstract effect of an instruction, `none` if it is unsafe. -/
def Op.after? (p : Program) (h : Holding) : Op → Option Holding
  | push id => if p.isOccupied id then some { h with values := h.values + 1 } else none
  | immediate v => if v.isSolid then some { h with values := h.values + 1 } else none
  | lookup _ => if h.name then none else some { h with name := true }
  | load => if h.name then some ⟨h.values + 1, false⟩ else none
  | define _ => if 0 < h.values then some { h with values := h.values - 1 } else none
  | call arity =>
    if h.name ∧ 0 ≤ arity ∧ arity.toNat ≤ h.values then
      some ⟨h.values - arity.toNat + 1, false⟩
    else none
  | invalid _ => none

namespace Op

variable {p : Program} {h next : Holding}

theorem after?_push {id : Int} :
    (push id).after? p h = some next ↔ p.isOccupied id ∧ ⟨h.values + 1, h.name⟩ = next := by
  simp [after?]

theorem after?_immediate {v : Value} :
    (immediate v).after? p h = some next ↔ v.isSolid ∧ ⟨h.values + 1, h.name⟩ = next := by
  simp [after?]

theorem after?_lookup {name : Bytes} :
    (lookup name).after? p h = some next ↔ h.name = false ∧ ⟨h.values, true⟩ = next := by
  simp [after?]

theorem after?_load :
    load.after? p h = some next ↔ h.name ∧ ⟨h.values + 1, false⟩ = next := by
  simp [after?]

theorem after?_define {name : Bytes} :
    (define name).after? p h = some next ↔ 0 < h.values ∧ ⟨h.values - 1, h.name⟩ = next := by
  simp [after?]

theorem after?_call {arity : Int} :
    (call arity).after? p h = some next ↔
      (h.name ∧ 0 ≤ arity ∧ arity.toNat ≤ h.values) ∧
        ⟨h.values - arity.toNat + 1, false⟩ = next := by
  simp [after?]

end Op

namespace Program

/-- Accepts code that is safe and leaves at most one value and no name. -/
def verify (p : Program) : Holding → List Op → Bool
  | h, [] => !h.name && h.values ≤ 1
  | h, op :: ops =>
    match op.after? p h with
    | none => false
    | some h => p.verify h ops

/-- All code is safe from the start, and every entry is a chunk. -/
def isVerified (p : Program) : Bool :=
  p.chunks.all (fun c => c.any fun c => p.verify {} c.code) && p.entries.all p.isOccupied

variable {p : Program} {h : Holding}

theorem isOccupied_iff {id : Int} : p.isOccupied id ↔ ∃ c, p.chunk? id = some (some c) := by
  unfold isOccupied
  rw [Option.isSome_iff_exists]
  cases p.chunk? id with
  | none => simp
  | some c => simp

theorem verify_nil : p.verify h [] ↔ h.name = false ∧ h.values ≤ 1 := by
  simp [verify]

theorem verify_cons {op : Op} {ops : List Op} :
    p.verify h (op :: ops) ↔ ∃ next, op.after? p h = some next ∧ p.verify next ops := by
  rw [verify.eq_def]
  dsimp only
  split
  · rename_i hn
    simp [hn]
  · rename_i next hn
    simp [hn]

theorem isSolid_of_verify {ops : List Op} (hv : p.verify h ops) : ops.all Op.isSolid := by
  induction ops generalizing h with
  | nil => rfl
  | cons op ops ih =>
    obtain ⟨next, hnext, hv⟩ := verify_cons.1 hv
    rw [List.all_cons, ih hv, Bool.and_true]
    cases op with
    | immediate v => exact (Op.after?_immediate.1 hnext).1
    | push | load | define | lookup | call | invalid => rfl

theorem isOccupied_of_verify {ops : List Op} (hv : p.verify h ops) {id : Int}
    (hop : .push id ∈ ops) : p.isOccupied id := by
  induction ops generalizing h with
  | nil => cases hop
  | cons op ops ih =>
    obtain ⟨next, hnext, hv⟩ := verify_cons.1 hv
    rcases List.mem_cons.1 hop with rfl | hop
    · exact (Op.after?_push.1 hnext).1
    · exact ih hv hop

theorem verify_of_chunk? {id : Int} {c : Option Chunk} (hp : p.isVerified)
    (hc : p.chunk? id = some c) : ∃ chunk, c = some chunk ∧ p.verify {} chunk.code := by
  unfold chunk? at hc
  split at hc
  · cases hc
  · have hall := List.all_eq_true.1 (Bool.and_eq_true_iff.1 hp).1
    exact (Option.any_eq_true _ c).1 (hall c (List.mem_of_getElem? hc))

theorem isSolid_of_isVerified (hp : p.isVerified) : p.isSolid := by
  have hall := List.all_eq_true.1 (Bool.and_eq_true_iff.1 hp).1
  refine List.all_eq_true.2 ?_
  intro c hc
  obtain ⟨chunk, rfl, hv⟩ := (Option.any_eq_true _ c).1 (hall c hc)
  exact isSolid_of_verify hv

theorem verify_pushes {ids : List Nat} (hids : ∀ id ∈ ids, p.isOccupied (id : Int)) (n : Nat)
    (rest : List Op) :
    p.verify ⟨n, false⟩ (ids.map (fun (i : Nat) => Op.push i) ++ rest) =
      p.verify ⟨n + ids.length, false⟩ rest := by
  induction ids generalizing n with
  | nil => rfl
  | cons id ids ih =>
    obtain ⟨hid, hids⟩ := List.forall_mem_cons.1 hids
    have hlength : n + (id :: ids).length = n + 1 + ids.length := by
      rw [List.length_cons]
      omega
    rw [hlength, ← ih hids (n + 1)]
    simp only [List.map_cons, List.cons_append, verify, Op.after?, hid, if_true]

theorem HoldsAll.isOccupied {ids : List Nat} {es : List Expr} (h : p.HoldsAll ids es) :
    ∀ id ∈ ids, p.isOccupied (id : Int) := by
  induction es generalizing ids with
  | nil => cases h; exact List.forall_mem_nil _
  | cons e es ih =>
    cases h with
    | cons he hes => exact List.forall_mem_cons.2 ⟨isOccupied_iff.2 he.chunk?, ih hes⟩

end Program

namespace Expr

variable {p : Program}

mutual

/-- The code of a tree of solid values is accepted. -/
theorem Lowered.verify {id : Nat} {e : Expr} {chunks : List Chunk} (h : Lowered id e chunks)
    (he : e.isSolid) (hp : p.Fits id chunks) : ∀ c ∈ chunks, p.verify {} c.code := by
  cases h with
  | empty => exact List.forall_mem_singleton.2 rfl
  | static =>
    refine List.forall_mem_singleton.2 ?_
    exact Program.verify_cons.2 ⟨_, Op.after?_immediate.2 ⟨he, rfl⟩, rfl⟩
  | reference hn => exact List.forall_mem_singleton.2 rfl
  | define hn hb =>
    have hid := Program.isOccupied_iff.2 (hb.holds hp.tail).chunk?
    refine List.forall_mem_cons.2 ⟨?_, hb.verify he hp.tail⟩
    rw [Chunk.code_onLine]
    exact Program.verify_cons.2 ⟨_, Op.after?_push.2 ⟨hid, rfl⟩, rfl⟩
  | call hn ha =>
    have hargs := ha.holdsAll hp.tail
    refine List.forall_mem_cons.2 ⟨?_, ha.verify he hp.tail⟩
    rw [Chunk.code_onLine, Program.verify_pushes hargs.isOccupied, hargs.length_eq]
    simp [Program.verify, Op.after?]

theorem LoweredAll.verify {id : Nat} {es : List Expr} {ids : List Nat} {chunks : List Chunk}
    (h : LoweredAll id es ids chunks) (hes : areSolid es) (hp : p.Fits id chunks) :
    ∀ c ∈ chunks, p.verify {} c.code := by
  cases h with
  | nil => exact List.forall_mem_nil _
  | cons he hrest =>
    obtain ⟨hsolid, hothers⟩ := Bool.and_eq_true_iff.1 hes
    refine List.forall_mem_append.2 ⟨?_, ?_⟩
    · exact he.verify hsolid hp.append_left
    · exact hrest.verify hothers hp.append_right

end

end Expr

/-- Compiled trees of solid values are a verified program. -/
theorem isVerified_of_compile {forms : List Expr} {p : Program} (h : compile forms = .ok p)
    (hforms : Expr.areSolid forms) : p.isVerified := by
  obtain ⟨ids, chunks, hl, rfl⟩ := loweredAll_of_compile h
  have hfits := fits_map_some chunks (ids.map fun (i : Nat) => (i : Int))
  unfold Program.isVerified
  rw [Bool.and_eq_true_iff, List.all_eq_true, List.all_eq_true]
  constructor
  · intro c hc
    obtain ⟨chunk, hmem, rfl⟩ := List.mem_map.1 hc
    exact hl.verify hforms hfits chunk hmem
  · intro id hid
    obtain ⟨i, hi, rfl⟩ := List.mem_map.1 hid
    exact (hl.holdsAll hfits).isOccupied i hi

end MiniScheme
