import MiniScheme.Code.Lowering

/-! The layout of compiled programs. Each node has a chunk of its own, which pushes the chunks of
its children. -/
namespace MiniScheme

theorem Chunk.code_emit (c : Chunk) (op : Op) (line : Int) :
    (c.emit op line).code = c.code ++ [op] := rfl

theorem Chunk.code_foldl_emit (ops : List Op) (line : Int) (c : Chunk) :
    (ops.foldl (fun c op => c.emit op line) c).code = c.code ++ ops := by
  induction ops generalizing c with
  | nil => exact (List.append_nil _).symm
  | cons op ops ih =>
    rw [List.foldl_cons, ih, code_emit, List.append_assoc]
    rfl

@[simp] theorem Chunk.code_onLine (id line : Int) (ops : List Op) :
    (onLine id line ops).code = ops :=
  code_foldl_emit ops line { id }

theorem getElem?_of_drop {code rest : List Op} {ip : Nat} {op : Op}
    (h : code.drop ip = op :: rest) : code[ip]? = some op ∧ code.drop (ip + 1) = rest := by
  constructor
  · rw [← List.head?_drop, h]
    rfl
  · rw [← List.tail_drop, h]
    rfl

namespace Program

theorem chunk?_natCast (p : Program) (id : Nat) : p.chunk? (id : Int) = p.chunks[id]? := by
  unfold chunk?
  rw [if_neg (by omega), Int.toNat_natCast]

def Has (p : Program) (id : Nat) (ops : List Op) : Prop :=
  ∃ c, p.chunk? (id : Int) = some (some c) ∧ c.code = ops

theorem Has.drop_zero {p : Program} {id : Nat} {ops : List Op} {c : Chunk} (h : p.Has id ops)
    (hc : p.chunk? (id : Int) = some (some c)) : c.code.drop 0 = ops := by
  obtain ⟨d, hd, hcode⟩ := h
  rw [hd] at hc
  cases hc
  exact hcode

mutual

/-- The chunk at `id`, with everything it pushes, is the code of a tree. -/
inductive Holds (p : Program) : Nat → Expr → Prop where
  | empty {id : Nat} {pos : Position} (h : p.Has id []) : Holds p id (.empty pos)
  | static {id : Nat} {v : Value} {pos : Position} (h : p.Has id [.immediate v]) :
      Holds p id (.static v pos)
  | reference {id : Nat} {name : Bytes} {pos : Position} (h : p.Has id [.lookup name, .load]) :
      Holds p id (.reference name pos)
  | define {id inner : Nat} {name : Bytes} {body : Expr} {pos : Position}
      (h : p.Has id [.push inner, .define name]) (hbody : Holds p inner body) :
      Holds p id (.define name body pos)
  | call {id : Nat} {ids : List Nat} {name : Bytes} {args : List Expr} {pos : Position}
      (h : p.Has id (ids.map (fun (i : Nat) => Op.push i) ++ [.lookup name, .call args.length]))
      (hargs : HoldsAll p ids args) : Holds p id (.call name args pos)

inductive HoldsAll (p : Program) : List Nat → List Expr → Prop where
  | nil : HoldsAll p [] []
  | cons {id : Nat} {ids : List Nat} {e : Expr} {es : List Expr} (he : Holds p id e)
      (hes : HoldsAll p ids es) : HoldsAll p (id :: ids) (e :: es)

end

theorem Holds.chunk? {p : Program} {id : Nat} {e : Expr} (h : p.Holds id e) :
    ∃ c, p.chunk? (id : Int) = some (some c) := by
  cases h with
  | empty h | static h | reference h | define h _ | call h _ =>
    obtain ⟨c, hc, -⟩ := h
    exact ⟨c, hc⟩

theorem HoldsAll.length_eq {p : Program} {ids : List Nat} {es : List Expr} (h : p.HoldsAll ids es) :
    ids.length = es.length := by
  induction es generalizing ids with
  | nil => cases h; rfl
  | cons e es ih =>
    cases h with
    | cons _ hes => rw [List.length_cons, List.length_cons, ih hes]

/-- The chunks occupy the table from `id` on. -/
def Fits (p : Program) (id : Nat) (chunks : List Chunk) : Prop :=
  ∀ i c, chunks[i]? = some c → p.chunks[id + i]? = some (some c)

variable {p : Program} {id : Nat} {c : Chunk} {chunks rest : List Chunk}

theorem Fits.head (h : p.Fits id (c :: chunks)) : p.chunk? (id : Int) = some (some c) := by
  rw [chunk?_natCast]
  exact h 0 c rfl

theorem Fits.has_onLine {line : Int} {ops : List Op}
    (h : p.Fits id (.onLine id line ops :: chunks)) : p.Has id ops :=
  ⟨.onLine id line ops, h.head, Chunk.code_onLine ..⟩

theorem Fits.tail (h : p.Fits id (c :: chunks)) : p.Fits (id + 1) chunks := by
  intro i d hd
  have htail := h (i + 1) d hd
  rwa [Nat.add_comm i 1, ← Nat.add_assoc] at htail

theorem Fits.append_left (h : p.Fits id (chunks ++ rest)) : p.Fits id chunks := by
  intro i d hd
  have hlt : i < chunks.length := (List.getElem?_eq_some_iff.1 hd).1
  apply h i d
  rw [List.getElem?_append_left hlt, hd]

theorem Fits.append_right (h : p.Fits id (chunks ++ rest)) :
    p.Fits (id + chunks.length) rest := by
  intro i d hd
  rw [Nat.add_assoc]
  apply h (chunks.length + i) d
  rw [List.getElem?_append_right (Nat.le_add_right _ _), Nat.add_sub_cancel_left, hd]

end Program

theorem bind_eq_ok {ε α β : Type} {x : Except ε α} {f : α → Except ε β} {b : β}
    (h : x >>= f = .ok b) : ∃ a, x = .ok a ∧ f a = .ok b := by
  cases x with
  | error e => cases h
  | ok a => exact ⟨a, rfl, h⟩

theorem exists_bind_eq_ok {ε α β : Type} {x : Except ε α} {f : α → Except ε β}
    (hx : ∃ a, x = .ok a) (hf : ∀ a, ∃ b, f a = .ok b) : ∃ b, x >>= f = .ok b := by
  obtain ⟨a, rfl⟩ := hx
  exact hf a

namespace Expr

mutual

/-- `Lowered id e chunks`: the code of `e`, numbered from `id` on, is `chunks`. -/
inductive Lowered : Nat → Expr → List Chunk → Prop where
  | empty {id : Nat} {pos : Position} : Lowered id (.empty pos) [.onLine id pos.line []]
  | static {id : Nat} {v : Value} {pos : Position} :
      Lowered id (.static v pos) [.onLine id pos.line [.immediate v]]
  | reference {id : Nat} {name : Bytes} {pos : Position} (hn : name ≠ []) :
      Lowered id (.reference name pos) [.onLine id pos.line [.lookup name, .load]]
  | define {id : Nat} {name : Bytes} {body : Expr} {pos : Position} {chunks : List Chunk}
      (hn : name ≠ []) (hb : Lowered (id + 1) body chunks) :
      Lowered id (.define name body pos)
        (.onLine id pos.line [.push (id + 1 : Nat), .define name] :: chunks)
  | call {id : Nat} {ids : List Nat} {name : Bytes} {args : List Expr} {pos : Position}
      {chunks : List Chunk} (hn : name ≠ []) (ha : LoweredAll (id + 1) args ids chunks) :
      Lowered id (.call name args pos)
        (.onLine id pos.line (ids.map (fun (i : Nat) => Op.push i) ++
          [.lookup name, .call args.length]) :: chunks)

/-- `LoweredAll id es ids chunks`: the code of the trees `es` in order is `chunks`, and `ids` are
their first chunks. -/
inductive LoweredAll : Nat → List Expr → List Nat → List Chunk → Prop where
  | nil {id : Nat} : LoweredAll id [] [] []
  | cons {id : Nat} {ids : List Nat} {e : Expr} {es : List Expr} {chunks rest : List Chunk}
      (he : Lowered id e chunks) (hes : LoweredAll (id + chunks.length) es ids rest) :
      LoweredAll id (e :: es) (id :: ids) (chunks ++ rest)

end

mutual

theorem lowered_of_lower {id : Nat} (e : Expr) {chunks : List Chunk}
    (h : e.lower id = .ok chunks) : Lowered id e chunks := by
  cases e with
  | missing => cases h
  | foreign typeName pos => cases h
  | empty pos => cases h; exact .empty
  | static v pos => cases h; exact .static
  | reference name pos =>
    simp only [lower] at h
    split at h
    · cases h
    · rename_i hn
      cases h
      exact .reference hn
  | define name body pos =>
    simp only [lower] at h
    split at h
    · cases h
    · rename_i hn
      split at h
      · cases h
      · obtain ⟨inner, hinner, hchunks⟩ := bind_eq_ok h
        cases hchunks
        exact .define hn (lowered_of_lower body hinner)
  | call name args pos =>
    simp only [lower] at h
    split at h
    · cases h
    · rename_i hn
      obtain ⟨⟨ids, inner⟩, hinner, hchunks⟩ := bind_eq_ok h
      cases hchunks
      exact .call hn (loweredAll_of_lowerArgs args hinner)

theorem loweredAll_of_lowerArgs {procedure : Bytes} {pos : Position} {index id : Nat}
    (args : List Expr) {ids : List Nat} {chunks : List Chunk}
    (h : lowerArgs procedure pos index id args = .ok (ids, chunks)) :
    LoweredAll id args ids chunks := by
  cases args with
  | nil => cases h; exact .nil
  | cons arg args =>
    simp only [lowerArgs] at h
    split at h
    · cases h
    · obtain ⟨first, hfirst, h⟩ := bind_eq_ok h
      obtain ⟨⟨others, rest⟩, hrest, hchunks⟩ := bind_eq_ok h
      cases hchunks
      exact .cons (lowered_of_lower arg hfirst) (loweredAll_of_lowerArgs args hrest)

end

theorem loweredAll_of_lowerForms {id : Nat} {forms : List Expr} {ids : List Nat}
    {chunks : List Chunk} (h : lowerForms id forms = .ok (ids, chunks)) :
    LoweredAll id forms ids chunks := by
  induction forms generalizing id ids chunks with
  | nil => cases h; exact .nil
  | cons form forms ih =>
    simp only [lowerForms] at h
    obtain ⟨first, hfirst, h⟩ := bind_eq_ok h
    obtain ⟨⟨others, rest⟩, hrest, hchunks⟩ := bind_eq_ok h
    cases hchunks
    exact .cons (lowered_of_lower form hfirst) (ih hrest)

variable {p : Program}

mutual

/-- A program that contains the code of a tree holds the tree. -/
theorem Lowered.holds {id : Nat} {e : Expr} {chunks : List Chunk} (h : Lowered id e chunks)
    (hp : p.Fits id chunks) : p.Holds id e := by
  cases h with
  | empty => exact .empty hp.has_onLine
  | static => exact .static hp.has_onLine
  | reference hn => exact .reference hp.has_onLine
  | define hn hb => exact .define hp.has_onLine (hb.holds hp.tail)
  | call hn ha => exact .call hp.has_onLine (ha.holdsAll hp.tail)

theorem LoweredAll.holdsAll {id : Nat} {es : List Expr} {ids : List Nat} {chunks : List Chunk}
    (h : LoweredAll id es ids chunks) (hp : p.Fits id chunks) : p.HoldsAll ids es := by
  cases h with
  | nil => exact .nil
  | cons he hes => exact .cons (he.holds hp.append_left) (hes.holdsAll hp.append_right)

end

end Expr

theorem fits_map_some (chunks : List Chunk) (entries : List Int) :
    Program.Fits ⟨chunks.map some, entries⟩ 0 chunks := by
  intro i c hc
  rw [Nat.zero_add, List.getElem?_map, hc]
  rfl

theorem loweredAll_of_compile {forms : List Expr} {p : Program} (h : compile forms = .ok p) :
    ∃ ids chunks, Expr.LoweredAll 0 forms ids chunks ∧
      p = ⟨chunks.map some, ids.map fun (i : Nat) => (i : Int)⟩ := by
  obtain ⟨⟨ids, chunks⟩, hlower, hp⟩ := bind_eq_ok h
  cases hp
  exact ⟨ids, chunks, Expr.loweredAll_of_lowerForms hlower, rfl⟩

/-- The entries of a compiled program are the code of its forms, in order. -/
theorem holdsAll_of_compile {forms : List Expr} {p : Program} (h : compile forms = .ok p) :
    ∃ ids : List Nat, p.entries = ids.map (fun (i : Nat) => (i : Int)) ∧ p.HoldsAll ids forms := by
  obtain ⟨ids, chunks, hl, rfl⟩ := loweredAll_of_compile h
  exact ⟨ids, rfl, hl.holdsAll (fits_map_some chunks _)⟩

end MiniScheme
