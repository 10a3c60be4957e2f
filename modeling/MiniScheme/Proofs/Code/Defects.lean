import MiniScheme.Proofs.Code.Preorder

/-! Trees that cannot be lowered. The compiler reports the first defective node in preorder. -/
namespace MiniScheme

/-- The role of a tree in the program, which determines the error if the tree is missing. -/
inductive Role where
  | form
  | body (name : Bytes) (pos : Position)
  | argument (index : Nat) (procedure : Bytes) (pos : Position)

namespace Role

/-- The position at which a missing tree is reported: that of its parent, or the start of the
source. -/
def pos : Role → Position
  | form => {}
  | body _ pos | argument _ _ pos => pos

def absence : Role → Defect
  | form => .missingForm
  | body name _ => .missingBody name
  | argument index procedure _ => .missingArgument index procedure

end Role

namespace Expr

/-- The node itself is defective, its children aside. -/
def isDefective : Expr → Bool
  | missing | foreign .. => true
  | reference name _ | define name _ _ | call name _ _ => name = []
  | empty _ | static .. => false

def isForeign : Expr → Bool
  | foreign .. => true
  | _ => false

end Expr

structure Visit where
  role : Role
  node : Expr

namespace Visit

def pos (v : Visit) : Position :=
  if v.node.isMissing then v.role.pos else v.node.pos

def defect? (v : Visit) : Option Defect :=
  match v.node with
  | .missing => some v.role.absence
  | .foreign typeName _ => some (.foreign typeName)
  | .reference name _ => if name = [] then some .unnamedReference else none
  | .define name _ _ => if name = [] then some .unnamedDefinition else none
  | .call name _ _ => if name = [] then some .unnamedCall else none
  | .empty _ | .static .. => none

def error? (v : Visit) : Option CompileError :=
  v.defect?.map fun defect => ⟨v.pos, defect⟩

theorem error?_eq_some_iff {v : Visit} {e : CompileError} :
    v.error? = some e ↔ v.defect? = some e.defect ∧ e.pos = v.pos := by
  unfold error?
  rw [Option.map_eq_some_iff]
  constructor
  · rintro ⟨defect, hdefect, rfl⟩
    exact ⟨hdefect, rfl⟩
  · rintro ⟨hdefect, hpos⟩
    exact ⟨e.defect, hdefect, by rw [← hpos]⟩

theorem error?_reference (role : Role) (name : Bytes) (pos : Position) :
    error? ⟨role, .reference name pos⟩ =
      if name = [] then some ⟨pos, .unnamedReference⟩ else none := by
  unfold error? defect?
  exact apply_ite ..

theorem error?_define (role : Role) (name : Bytes) (body : Expr) (pos : Position) :
    error? ⟨role, .define name body pos⟩ =
      if name = [] then some ⟨pos, .unnamedDefinition⟩ else none := by
  unfold error? defect?
  exact apply_ite ..

theorem error?_call (role : Role) (name : Bytes) (args : List Expr) (pos : Position) :
    error? ⟨role, .call name args pos⟩ =
      if name = [] then some ⟨pos, .unnamedCall⟩ else none := by
  unfold error? defect?
  exact apply_ite ..

theorem isSome_error?_iff (v : Visit) : v.error?.isSome ↔ v.node.isDefective := by
  obtain ⟨role, node⟩ := v
  cases node with
  | missing | foreign | empty | static => simp [error?, defect?, Expr.isDefective]
  | reference name | define name | call name =>
    by_cases hname : name = [] <;> simp [error?, defect?, Expr.isDefective, hname]

theorem error?_eq_none_iff (v : Visit) : v.error? = none ↔ ¬v.node.isDefective := by
  rw [← isSome_error?_iff, Option.not_isSome_iff_eq_none]

/-- Only foreign nodes are unsupported; all other defects are malformed forms. -/
theorem family_of_defect? {v : Visit} {defect : Defect} (h : v.defect? = some defect) :
    defect.family = if v.node.isForeign then .unsupported else .malformed := by
  obtain ⟨role, node⟩ := v
  cases node with
  | missing => cases h; cases role <;> rfl
  | foreign => cases h; rfl
  | empty | static => cases h
  | reference name | define name | call name =>
    obtain ⟨-, rfl⟩ : name = [] ∧ _ = defect := by simpa [defect?] using h
    rfl

end Visit

namespace Expr

mutual

/-- The traversal of a tree in preorder. -/
def visits (role : Role) : Expr → List Visit
  | define name body pos => ⟨role, define name body pos⟩ :: visits (.body name pos) body
  | call name args pos => ⟨role, call name args pos⟩ :: visitsArgs name pos 0 args
  | e => [⟨role, e⟩]

def visitsArgs (procedure : Bytes) (pos : Position) (index : Nat) : List Expr → List Visit
  | [] => []
  | arg :: args =>
    visits (.argument index procedure pos) arg ++ visitsArgs procedure pos (index + 1) args

end

def visitsForms : List Expr → List Visit
  | [] => []
  | form :: forms => visits .form form ++ visitsForms forms

mutual

theorem map_node_visits (role : Role) (e : Expr) : (visits role e).map Visit.node = e.nodes := by
  cases e with
  | define name body pos => rw [visits, List.map_cons, map_node_visits _ body, nodes]
  | call name args pos => rw [visits, List.map_cons, map_node_visitsArgs name pos 0 args, nodes]
  | empty | static | reference | foreign | missing => rfl

theorem map_node_visitsArgs (procedure : Bytes) (pos : Position) (index : Nat)
    (args : List Expr) :
    (visitsArgs procedure pos index args).map Visit.node = nodesAll args := by
  cases args with
  | nil => rfl
  | cons arg args =>
    rw [visitsArgs, List.map_append, map_node_visits _ arg, map_node_visitsArgs _ _ _ args,
      nodesAll]

end

theorem map_node_visitsForms (forms : List Expr) :
    (visitsForms forms).map Visit.node = nodesAll forms := by
  induction forms with
  | nil => rfl
  | cons form forms ih => rw [visitsForms, List.map_append, map_node_visits, ih, nodesAll]

end Expr

section

variable {ε α β : Type}

def errorOf? : Except ε α → Option ε
  | .ok _ => none
  | .error e => some e

theorem errorOf?_eq_some_iff {x : Except ε α} {e : ε} : errorOf? x = some e ↔ x = .error e := by
  cases x with
  | ok a => simp [errorOf?]
  | error e => simp [errorOf?]

theorem errorOf?_ite {p : Prop} [Decidable p] {e : ε} {x : Except ε α} :
    errorOf? (if p then .error e else x) = (if p then some e else none).or (errorOf? x) := by
  split
  · rfl
  · rfl

/-- The first of two stages that fails determines the error. -/
theorem errorOf?_bind {x : Except ε α} {f : α → Except ε β} {e? : Option ε}
    (h : ∀ a, errorOf? (f a) = e?) : errorOf? (x >>= f) = (errorOf? x).or e? := by
  cases x with
  | ok a => exact h a
  | error e => rfl

theorem errorOf?_bind_of_none {x : Except ε α} {f : α → Except ε β}
    (h : ∀ a, errorOf? (f a) = none) : errorOf? (x >>= f) = errorOf? x := by
  rw [errorOf?_bind h, Option.or_none]

end

namespace Expr

theorem eq_missing_of_isMissing {e : Expr} (h : e.isMissing) : e = missing := by
  cases e with
  | missing => rfl
  | empty | static | reference | define | call | foreign => cases h

theorem findSome?_cons_visits (v : Visit) (vs : List Visit) :
    (v :: vs).findSome? Visit.error? = v.error?.or (vs.findSome? Visit.error?) := by
  rw [List.findSome?_cons]
  cases v.error? with
  | none => rfl
  | some e => rfl

mutual

/-- Lowering a tree fails at the first defective node of its traversal. -/
theorem errorOf?_lower (role : Role) (id : Nat) (e : Expr) (he : e.isMissing = false) :
    errorOf? (e.lower id) = (visits role e).findSome? Visit.error? := by
  cases e with
  | missing => cases he
  | empty | static | foreign => rfl
  | reference name pos =>
    rw [lower, errorOf?_ite, ← Visit.error?_reference role]
    exact (findSome?_cons_visits _ []).symm
  | define name body pos =>
    rw [lower, errorOf?_ite, visits, findSome?_cons_visits, Visit.error?_define]
    congr 1
    cases hbody : body.isMissing with
    | true =>
      obtain rfl := eq_missing_of_isMissing hbody
      rfl
    | false =>
      rw [if_neg (by simp), ← errorOf?_lower _ (id + 1) body hbody]
      exact errorOf?_bind_of_none fun _ => rfl
  | call name args pos =>
    rw [lower, errorOf?_ite, visits, findSome?_cons_visits, Visit.error?_call,
      ← errorOf?_lowerArgs name pos 0 (id + 1) args]
    congr 1
    exact errorOf?_bind_of_none fun _ => rfl

theorem errorOf?_lowerArgs (procedure : Bytes) (pos : Position) (index id : Nat)
    (args : List Expr) :
    errorOf? (lowerArgs procedure pos index id args) =
      (visitsArgs procedure pos index args).findSome? Visit.error? := by
  cases args with
  | nil => rfl
  | cons arg args =>
    rw [lowerArgs, visitsArgs, List.findSome?_append]
    cases harg : arg.isMissing with
    | true =>
      obtain rfl := eq_missing_of_isMissing harg
      rfl
    | false =>
      rw [if_neg (by simp), ← errorOf?_lower (.argument index procedure pos) id arg harg]
      refine errorOf?_bind ?_
      intro chunks
      rw [← errorOf?_lowerArgs procedure pos (index + 1) (id + chunks.length) args]
      exact errorOf?_bind_of_none fun _ => rfl

end

theorem errorOf?_lowerForms (id : Nat) (forms : List Expr) :
    errorOf? (lowerForms id forms) = (visitsForms forms).findSome? Visit.error? := by
  induction forms generalizing id with
  | nil => rfl
  | cons form forms ih =>
    have hform : errorOf? (form.lower id) = (visits .form form).findSome? Visit.error? := by
      cases hm : form.isMissing with
      | true =>
        obtain rfl := eq_missing_of_isMissing hm
        rfl
      | false => exact errorOf?_lower .form id form hm
    rw [lowerForms, visitsForms, List.findSome?_append, ← hform]
    refine errorOf?_bind ?_
    intro chunks
    rw [← ih (id + chunks.length)]
    exact errorOf?_bind_of_none fun _ => rfl

end Expr

theorem errorOf?_compile (forms : List Expr) :
    errorOf? (compile forms) = (Expr.visitsForms forms).findSome? Visit.error? := by
  rw [← Expr.errorOf?_lowerForms 0]
  exact errorOf?_bind_of_none fun _ => rfl

/-- The traversal visits the nodes of all trees in preorder. Compilation fails iff one of them is
defective, with the error of the first such node: unsupported if the node is foreign and malformed
otherwise, at the position of the node if it exists, else at that of its parent, or at the start of
the source for a top-level form. -/
theorem compile_first_defect (forms : List Expr) :
    (Expr.visitsForms forms).map Visit.node = Expr.nodesAll forms ∧
      ((∃ e, compile forms = .error e) ↔ ∃ node ∈ Expr.nodesAll forms, node.isDefective) ∧
      ∀ e, compile forms = .error e ↔ ∃ before v after,
        Expr.visitsForms forms = before ++ v :: after ∧
        (∀ u ∈ before, ¬u.node.isDefective) ∧ v.node.isDefective ∧ v.defect? = some e.defect ∧
        e.defect.family = (if v.node.isForeign then .unsupported else .malformed) ∧
        e.pos = if v.node.isMissing then v.role.pos else v.node.pos := by
  have hnodes := Expr.map_node_visitsForms forms
  have herror (e : CompileError) : compile forms = .error e ↔
      (Expr.visitsForms forms).findSome? Visit.error? = some e := by
    rw [← errorOf?_compile, errorOf?_eq_some_iff]
  refine ⟨hnodes, ?_, ?_⟩
  · simp only [herror, ← Option.isSome_iff_exists, List.findSome?_isSome_iff,
      Visit.isSome_error?_iff, ← hnodes, List.mem_map, exists_exists_and_eq_and]
  · intro e
    rw [herror, List.findSome?_eq_some_iff]
    constructor
    · rintro ⟨before, v, after, hvisits, hv, hbefore⟩
      obtain ⟨hdefect, hpos⟩ := Visit.error?_eq_some_iff.1 hv
      have hwanting : v.node.isDefective := (Visit.isSome_error?_iff v).1 (by rw [hv]; rfl)
      refine ⟨before, v, after, hvisits, ?_, hwanting, hdefect, Visit.family_of_defect? hdefect,
        hpos⟩
      intro u hu
      exact (Visit.error?_eq_none_iff u).1 (hbefore u hu)
    · rintro ⟨before, v, after, hvisits, hbefore, -, hdefect, -, hpos⟩
      refine ⟨before, v, after, hvisits, Visit.error?_eq_some_iff.2 ⟨hdefect, hpos⟩, ?_⟩
      intro u hu
      exact (Visit.error?_eq_none_iff u).2 (hbefore u hu)

/-- A call without a name precedes its missing argument and follows a missing part to its left. -/
example :
    let unnamed : Expr := .call [] [.missing] { line := 2 }
    let before : Expr := .call (ascii "f") [.empty {}, .missing, unnamed] { line := 1 }
    compile [before] = .error ⟨{ line := 1 }, .missingArgument 1 (ascii "f")⟩ ∧
      compile [.define (ascii "x") unnamed {}, .missing] =
        .error ⟨{ line := 2 }, .unnamedCall⟩ := by
  decide

end MiniScheme
