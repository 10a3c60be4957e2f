import MiniScheme.Proofs.Code.Cost
import MiniScheme.Proofs.Code.Verifier
import MiniScheme.Proofs.Expr.Relocation

/-! Relocated code. Forms that are compiled after others, on later lines, have their own code with
its indices and lines shifted. -/
namespace MiniScheme

def Op.relocate (places : Nat) : Op → Op
  | push id => push (id + places)
  | op => op

theorem Op.relocate_of_ne_push {op : Op} (h : ∀ id, op ≠ push id) (places : Nat) :
    op.relocate places = op := by
  cases op with
  | push id => exact absurd rfl (h id)
  | immediate | load | define | lookup | call | invalid => rfl

theorem Op.relocate_zero (op : Op) : op.relocate 0 = op := by
  cases op with
  | push id => simp [relocate]
  | immediate | load | define | lookup | call | invalid => rfl

def Site.relocate (places lines : Nat) (s : Site) : Site :=
  ⟨s.chunk + places, s.line + lines, s.offset⟩

theorem Site.relocate_zero (s : Site) : s.relocate 0 0 = s := by
  simp [relocate]

namespace Chunk

def relocate (places lines : Nat) (c : Chunk) : Chunk where
  id := c.id + places
  code := c.code.map (Op.relocate places)
  lines := c.lines.map fun entry => ⟨entry.offset, entry.line + lines⟩

theorem relocate_zero (c : Chunk) : c.relocate 0 0 = c := by
  simp [relocate, funext Op.relocate_zero]

/-- `c.Corresponds places f g d`: `d` has the code of `c` in a table with `places` more chunks in
front, and each of its sites has the same image under `g` as that of `c` under `f`. -/
structure Corresponds (places : Nat) (f g : Site → Site) (c d : Chunk) : Prop where
  code : d.code = c.code.map (Op.relocate places)
  site : ∀ {i : Nat}, i < c.code.length → g (d.siteAt i) = f (c.siteAt i)

theorem Corresponds.getElem? {places : Nat} {f g : Site → Site} {c d : Chunk}
    (h : c.Corresponds places f g d) {ip : Nat} {op : Op} (hop : c.code[ip]? = some op) :
    d.code[ip]? = some (op.relocate places) := by
  rw [h.code, List.getElem?_map, hop]
  rfl

theorem emit_relocate (places lines : Nat) (c : Chunk) (op : Op) (line : Int) :
    (c.emit op line).relocate places lines =
      (c.relocate places lines).emit (op.relocate places) (line + lines) := by
  have hlast : (c.relocate places lines).lines.getLast?.map (·.line) = some (line + lines) ↔
      c.lines.getLast?.map (·.line) = some line := by
    cases h : c.lines.getLast? with
    | none => simp [relocate, h]
    | some entry => simp [relocate, h]
  by_cases h : c.lines.getLast?.map (·.line) = some line
  · simp only [emit, if_pos h, if_pos (hlast.2 h)]
    simp [relocate]
  · simp only [emit, if_neg h, if_neg (mt hlast.1 h)]
    simp [relocate]

theorem onLine_relocate (places lines : Nat) (id line : Int) (ops : List Op) :
    (onLine id line ops).relocate places lines =
      onLine (id + places) (line + lines) (ops.map (Op.relocate places)) := by
  have hfold (c : Chunk) :
      (ops.foldl (fun c op => c.emit op line) c).relocate places lines =
        (ops.map (Op.relocate places)).foldl (fun c op => c.emit op (line + lines))
          (c.relocate places lines) := by
    induction ops generalizing c with
    | nil => rfl
    | cons op ops ih => rw [List.foldl_cons, ih, emit_relocate, List.map_cons, List.foldl_cons]
  exact hfold { id }

end Chunk

namespace Expr

variable {f : Position → Position}

@[simp] theorem isMissing_relocate (e : Expr) : (e.relocate f).isMissing = e.isMissing := by
  cases e <;> rfl

@[simp] theorem length_relocateAll (es : List Expr) : (relocateAll f es).length = es.length := by
  induction es with
  | nil => rfl
  | cons e es ih => rw [relocateAll, List.length_cons, ih, List.length_cons]

theorem onLine_relocate_pos {lines : Nat} (hf : ∀ pos, (f pos).line = pos.line + lines)
    (places id : Nat) (pos : Position) (ops : List Op) :
    (Chunk.onLine id pos.line ops).relocate places lines =
      .onLine (id + places : Nat) (f pos).line (ops.map (Op.relocate places)) := by
  rw [Chunk.onLine_relocate, hf, Int.natCast_add]

mutual

theorem lower_relocate {lines : Nat} (hf : ∀ pos, (f pos).line = pos.line + lines) (places : Nat)
    {id : Nat} (e : Expr) {chunks : List Chunk} (h : e.lower id = .ok chunks) :
    (e.relocate f).lower (id + places) = .ok (chunks.map (.relocate places lines)) := by
  cases e with
  | missing => cases h
  | foreign typeName pos => cases h
  | empty pos | static v pos =>
    cases h
    rw [List.map_singleton, onLine_relocate_pos hf]
    rfl
  | reference name pos =>
    simp only [lower] at h
    split at h
    · cases h
    · rename_i hn
      cases h
      rw [List.map_singleton, onLine_relocate_pos hf, relocate, lower, if_neg hn]
      rfl
  | define name body pos =>
    simp only [lower] at h
    split at h
    · cases h
    · rename_i hn
      split at h
      · cases h
      · rename_i hbody
        obtain ⟨inner, hinner, hchunks⟩ := bind_eq_ok h
        cases hchunks
        have hid : id + 1 + places = id + places + 1 := by omega
        have hmoved := lower_relocate hf places body hinner
        rw [List.map_cons, onLine_relocate_pos hf, relocate, lower, if_neg hn, isMissing_relocate,
          if_neg hbody, ← hid, hmoved]
        rfl
  | call name args pos =>
    simp only [lower] at h
    split at h
    · cases h
    · rename_i hn
      obtain ⟨⟨ids, inner⟩, hinner, hchunks⟩ := bind_eq_ok h
      cases hchunks
      have hid : id + 1 + places = id + places + 1 := by omega
      have hmoved := lowerArgs_relocate hf places (f pos) args hinner
      have hcode : (ids.map (fun (i : Nat) => Op.push i) ++
            [Op.lookup name, .call args.length]).map (Op.relocate places) =
          (ids.map (· + places)).map (fun (i : Nat) => Op.push i) ++
            [.lookup name, .call (relocateAll f args).length] := by
        rw [length_relocateAll, List.map_append, List.map_map, List.map_map]
        rfl
      rw [List.map_cons, onLine_relocate_pos hf, relocate, lower, if_neg hn, ← hid, hmoved, hcode]
      rfl

theorem lowerArgs_relocate {lines : Nat} (hf : ∀ pos, (f pos).line = pos.line + lines)
    (places : Nat) {procedure : Bytes} {pos : Position} (pos' : Position) {index id : Nat}
    (args : List Expr) {ids : List Nat} {chunks : List Chunk}
    (h : lowerArgs procedure pos index id args = .ok (ids, chunks)) :
    lowerArgs procedure pos' index (id + places) (relocateAll f args) =
      .ok (ids.map (· + places), chunks.map (.relocate places lines)) := by
  cases args with
  | nil => cases h; rfl
  | cons arg args =>
    simp only [lowerArgs] at h
    split at h
    · cases h
    · rename_i harg
      obtain ⟨first, hfirst, h⟩ := bind_eq_ok h
      obtain ⟨⟨others, rest⟩, hrest, hchunks⟩ := bind_eq_ok h
      cases hchunks
      have hid : id + first.length + places =
          id + places + (first.map (Chunk.relocate places lines)).length := by
        rw [List.length_map]
        omega
      have hmoved := lowerArgs_relocate hf places pos' args hrest
      rw [hid] at hmoved
      have hfirst' := lower_relocate hf places arg hfirst
      rw [relocateAll, lowerArgs, isMissing_relocate, if_neg harg, hfirst', List.map_append]
      simp only [bind, Except.bind, hmoved, List.map_cons]

end

theorem lowerForms_relocate {lines : Nat} (hf : ∀ pos, (f pos).line = pos.line + lines)
    (places : Nat) {id : Nat} (forms : List Expr) {ids : List Nat} {chunks : List Chunk}
    (h : lowerForms id forms = .ok (ids, chunks)) :
    lowerForms (id + places) (relocateAll f forms) =
      .ok (ids.map (· + places), chunks.map (.relocate places lines)) := by
  induction forms generalizing id ids chunks with
  | nil => cases h; rfl
  | cons form forms ih =>
    simp only [lowerForms] at h
    obtain ⟨first, hfirst, h⟩ := bind_eq_ok h
    obtain ⟨⟨others, rest⟩, hrest, hchunks⟩ := bind_eq_ok h
    cases hchunks
    have hid : id + first.length + places =
        id + places + (first.map (Chunk.relocate places lines)).length := by
      rw [List.length_map]
      omega
    have hmoved := ih hrest
    rw [hid] at hmoved
    rw [relocateAll, lowerForms, lower_relocate hf places form hfirst, List.map_append]
    simp only [bind, Except.bind, hmoved, List.map_cons]

theorem lowerForms_append {id : Nat} {es fs : List Expr} {ids ids' : List Nat}
    {chunks chunks' : List Chunk} (hes : lowerForms id es = .ok (ids, chunks))
    (hfs : lowerForms (id + chunks.length) fs = .ok (ids', chunks')) :
    lowerForms id (es ++ fs) = .ok (ids ++ ids', chunks ++ chunks') := by
  induction es generalizing id ids chunks with
  | nil => cases hes; exact hfs
  | cons e es ih =>
    simp only [lowerForms] at hes
    obtain ⟨first, hfirst, hes⟩ := bind_eq_ok hes
    obtain ⟨⟨others, rest⟩, hrest, hchunks⟩ := bind_eq_ok hes
    cases hchunks
    rw [List.length_append, ← Nat.add_assoc] at hfs
    have hall := ih hrest hfs
    rw [List.cons_append, lowerForms, hfirst, List.append_assoc]
    simp only [bind, Except.bind, hall, List.cons_append]

mutual

theorem Lowered.exists_onLine {id : Nat} {e : Expr} {chunks : List Chunk}
    (h : Lowered id e chunks) : ∀ c ∈ chunks, ∃ id line ops, c = .onLine id line ops := by
  cases h with
  | empty | static | reference hn => exact List.forall_mem_singleton.2 ⟨_, _, _, rfl⟩
  | define hn hb => exact List.forall_mem_cons.2 ⟨⟨_, _, _, rfl⟩, hb.exists_onLine⟩
  | call hn ha => exact List.forall_mem_cons.2 ⟨⟨_, _, _, rfl⟩, ha.exists_onLine⟩

theorem LoweredAll.exists_onLine {id : Nat} {es : List Expr} {ids : List Nat} {chunks : List Chunk}
    (h : LoweredAll id es ids chunks) : ∀ c ∈ chunks, ∃ id line ops, c = .onLine id line ops := by
  cases h with
  | nil => exact List.forall_mem_nil _
  | cons he hes => exact List.forall_mem_append.2 ⟨he.exists_onLine, hes.exists_onLine⟩

end

end Expr

namespace Program

def append (p q : Program) (lines : Nat) : Program where
  chunks := p.chunks ++ q.chunks.map (Option.map (.relocate p.chunks.length lines))
  entries := p.entries ++ q.entries.map fun id => id + (p.chunks.length : Int)

/-- `Embeds p q places lines`: `q` contains the code of `p` with indices and lines shifted, and `p`
is closed under pushes. -/
structure Embeds (p q : Program) (places lines : Nat) : Prop where
  chunk : ∀ {id : Int} {c : Chunk}, p.chunk? id = some (some c) →
    q.chunk? (id + places) = some (some (c.relocate places lines))
  site : ∀ {id : Int} {c : Chunk}, p.chunk? id = some (some c) → ∀ {i : Nat}, i < c.code.length →
    (c.relocate places lines).siteAt i = (c.siteAt i).relocate places lines
  closed : ∀ {id target : Int} {c : Chunk}, p.chunk? id = some (some c) → .push target ∈ c.code →
    ∃ d, p.chunk? target = some (some d)

/-- `p.Corresponds places f g q`: each chunk of `p` has its counterpart in `q`, `places` further on,
and `p` is closed under pushes. -/
structure Corresponds (places : Nat) (f g : Site → Site) (p q : Program) : Prop where
  chunk : ∀ {id : Int} {c : Chunk}, p.chunk? id = some (some c) →
    ∃ d, q.chunk? (id + places) = some (some d) ∧ c.Corresponds places f g d
  closed : ∀ {id target : Int} {c : Chunk}, p.chunk? id = some (some c) → .push target ∈ c.code →
    ∃ d, p.chunk? target = some (some d)

theorem Embeds.corresponds {p q : Program} {places lines : Nat} (h : p.Embeds q places lines) :
    p.Corresponds places (.relocate places lines) id q where
  chunk hc := ⟨_, h.chunk hc, rfl, h.site hc⟩
  closed := h.closed

theorem exists_natCast_of_chunk? {p : Program} {id : Int} {c : Option Chunk}
    (h : p.chunk? id = some c) : ∃ n : Nat, id = n ∧ p.chunks[n]? = some c := by
  unfold chunk? at h
  split at h
  · cases h
  · exact ⟨id.toNat, by omega, h⟩

theorem chunk?_append_left {p : Program} {id : Int} {c : Option Chunk} (h : p.chunk? id = some c)
    (q : Program) (lines : Nat) : (p.append q lines).chunk? id = some c := by
  obtain ⟨n, rfl, hn⟩ := exists_natCast_of_chunk? h
  obtain ⟨hlt, -⟩ := List.getElem?_eq_some_iff.1 hn
  rw [chunk?_natCast, append, List.getElem?_append_left hlt, hn]

theorem chunk?_append_right {q : Program} {id : Int} {c : Option Chunk} (h : q.chunk? id = some c)
    (p : Program) (lines : Nat) :
    (p.append q lines).chunk? (id + p.chunks.length) =
      some (c.map (.relocate p.chunks.length lines)) := by
  obtain ⟨n, rfl, hn⟩ := exists_natCast_of_chunk? h
  rw [← Int.natCast_add, chunk?_natCast, append,
    List.getElem?_append_right (Nat.le_add_left _ _), Nat.add_sub_cancel, List.getElem?_map, hn]
  rfl

end Program

/-- The code of concatenated forms is the concatenation of their code, the second part shifted. -/
theorem compile_append {f : Position → Position} {lines : Nat}
    (hf : ∀ pos, (f pos).line = pos.line + lines) {es fs : List Expr} {p q : Program}
    (hp : compile es = .ok p) (hq : compile fs = .ok q) :
    compile (es ++ Expr.relocateAll f fs) = .ok (p.append q lines) := by
  obtain ⟨⟨ids, chunks⟩, hes, hp⟩ := bind_eq_ok hp
  obtain ⟨⟨ids', chunks'⟩, hfs, hq⟩ := bind_eq_ok hq
  cases hp
  cases hq
  have hall := Expr.lowerForms_append hes (Expr.lowerForms_relocate hf chunks.length fs hfs)
  unfold compile
  rw [hall]
  simp [bind, Except.bind, Program.append, Function.comp_def]

/-- Compiled programs are closed under pushes. -/
theorem exists_chunk_of_push {forms : List Expr} {p : Program} (h : compile forms = .ok p)
    (hforms : Expr.areSolid forms) {id target : Int} {c : Chunk}
    (hc : p.chunk? id = some (some c)) (hop : .push target ∈ c.code) :
    ∃ d, p.chunk? target = some (some d) := by
  obtain ⟨chunk, heq, hv⟩ := Program.verify_of_chunk? (isVerified_of_compile h hforms) hc
  cases heq
  exact Program.isOccupied_iff.1 (Program.isOccupied_of_verify hv hop)

/-- Compiled code embeds into any table that contains a relocated copy. -/
theorem embeds_of_compile {forms : List Expr} {p q : Program} (h : compile forms = .ok p)
    (hforms : Expr.areSolid forms) {places lines : Nat}
    (hcopy : ∀ {id c}, p.chunk? id = some (some c) →
      q.chunk? (id + places) = some (some (c.relocate places lines))) :
    p.Embeds q places lines where
  chunk := hcopy
  site := by
    intro id c hc i hi
    obtain ⟨ids, chunks, hl, rfl⟩ := loweredAll_of_compile h
    obtain ⟨n, rfl, hn⟩ := Program.exists_natCast_of_chunk? hc
    obtain ⟨_, hmem, heq⟩ := List.mem_map.1 (List.mem_of_getElem? hn)
    cases heq
    obtain ⟨id, line, ops, rfl⟩ := hl.exists_onLine c hmem
    rw [Chunk.code_onLine] at hi
    rw [Chunk.onLine_relocate, Chunk.siteAt_onLine _ _ hi,
      Chunk.siteAt_onLine _ _ (by rwa [List.length_map])]
    rfl
  closed := exists_chunk_of_push h hforms

theorem embeds_self {forms : List Expr} {p : Program} (h : compile forms = .ok p)
    (hforms : Expr.areSolid forms) : p.Embeds p 0 0 := by
  refine embeds_of_compile h hforms ?_
  intro id c hc
  rw [c.relocate_zero, Int.natCast_zero, Int.add_zero, hc]

theorem embeds_append_left {forms : List Expr} {p : Program} (h : compile forms = .ok p)
    (hforms : Expr.areSolid forms) (q : Program) (lines : Nat) :
    p.Embeds (p.append q lines) 0 0 := by
  refine embeds_of_compile h hforms ?_
  intro id c hc
  rw [c.relocate_zero, Int.natCast_zero, Int.add_zero]
  exact Program.chunk?_append_left hc q lines

theorem embeds_append_right {forms : List Expr} {q : Program} (h : compile forms = .ok q)
    (hforms : Expr.areSolid forms) (p : Program) (lines : Nat) :
    q.Embeds (p.append q lines) p.chunks.length lines := by
  refine embeds_of_compile h hforms ?_
  intro id c hc
  exact Program.chunk?_append_right hc p lines

theorem exists_chunk_of_mem_entries {forms : List Expr} {p : Program} (h : compile forms = .ok p) :
    ∀ id ∈ p.entries, ∃ c, p.chunk? id = some (some c) := by
  obtain ⟨ids, hentries, hholds⟩ := holdsAll_of_compile h
  intro id hid
  rw [hentries] at hid
  obtain ⟨i, hi, rfl⟩ := List.mem_map.1 hid
  exact Program.isOccupied_iff.1 (hholds.isOccupied i hi)

theorem entries_eq_nil_iff {forms : List Expr} {p : Program} (h : compile forms = .ok p) :
    p.entries = [] ↔ forms = [] := by
  obtain ⟨ids, hentries, hholds⟩ := holdsAll_of_compile h
  rw [hentries, List.map_eq_nil_iff, ← List.length_eq_zero_iff, hholds.length_eq,
    List.length_eq_zero_iff]

end MiniScheme
