import MiniScheme.Proofs.Value.Solid

/-! Equality of values. It relates a value to itself only, and not even to itself if the value
contains something of an unknown kind. -/
namespace MiniScheme.Value

/-- `v.Contains u`: `u` is `v` itself or nested in its pairs. -/
inductive Contains : Value → Value → Prop where
  | self (v : Value) : Contains v v
  | left {left right u : Value} (h : Contains left u) : Contains (pair left right) u
  | right {left right u : Value} (h : Contains right u) : Contains (pair left right) u

theorem contains_pair {left right u : Value} (hu : u ≠ pair left right) :
    (pair left right).Contains u ↔ left.Contains u ∨ right.Contains u := by
  constructor
  · intro h
    cases h with
    | self => exact absurd rfl hu
    | left h => exact .inl h
    | right h => exact .inr h
  · rintro (h | h)
    · exact .left h
    · exact .right h

theorem contains_atom {v u : Value} (hv : ∀ left right, v ≠ pair left right) :
    v.Contains u ↔ u = v := by
  constructor
  · intro h
    cases h with
    | self => rfl
    | left | right => exact absurd rfl (hv _ _)
  · rintro rfl
    exact .self u

/-- A value is solid iff it contains no hollow pair. -/
theorem isSolid_iff (v : Value) : v.isSolid ↔ ¬v.Contains hollow := by
  induction v with
  | pair left right ihl ihr =>
    rw [isSolid_pair, ihl, ihr, contains_pair Value.noConfusion, not_or]
  | _ => simp [contains_atom, isSolid]

theorem render_eq_none_iff (style : Style) (v : Value) :
    v.render style = none ↔ v.Contains hollow := by
  have hsome := (render_isSome style v).1
  rw [isSolid_iff] at hsome
  rw [← Option.not_isSome_iff_eq_none, hsome, Classical.not_not]

theorem equal_self_iff (v : Value) : v.equal v ↔ ∀ kind, ¬v.Contains (unknown kind) := by
  induction v with
  | pair left right ihl ihr =>
    have hparts (kind : Int) : ¬(pair left right).Contains (unknown kind) ↔
        ¬left.Contains (unknown kind) ∧ ¬right.Contains (unknown kind) := by
      rw [contains_pair Value.noConfusion, not_or]
    rw [equal, Bool.and_eq_true, ihl, ihr, forall_congr' hparts, forall_and]
  | unknown kind =>
    constructor
    · intro h
      cases h
    · intro h
      exact absurd (.self _) (h kind)
  | _ => simp [contains_atom, equal]

theorem eq_of_equal {a b : Value} (h : a.equal b) : a = b := by
  fun_induction equal a b with
  | case1 | case2 | case3 => rfl
  | case10 a b c d ihl ihr =>
    obtain ⟨hl, hr⟩ := Bool.and_eq_true_iff.1 h
    rw [ihl hl, ihr hr]
  | case11 => cases h
  | _ => rw [beq_iff_eq.1 h]

theorem copy_eq (v : Value) : v.copy = v := by
  induction v with
  | pair left right hleft hright => rw [copy, hleft, hright]
  | null | eof | boolean | number | string | symbol | char | bytes | hollow | unknown => rfl

/-- Equality is symmetric and transitive. A value equals itself, and its copy, iff it contains
nothing of an unknown kind. A copy has the texts of its original, equal values have the same texts,
and a value has no text iff it contains a hollow pair. -/
theorem equal_laws (a b c : Value) :
    (a.equal b → b.equal a) ∧ (a.equal b → b.equal c → a.equal c) ∧
      (a.equal a ↔ ∀ kind, ¬a.Contains (unknown kind)) ∧
      (a.equal a.copy ↔ ∀ kind, ¬a.Contains (unknown kind)) ∧
      (a.copy.write? = a.write? ∧ a.copy.display? = a.display?) ∧
      (a.equal b → a.write? = b.write? ∧ a.display? = b.display?) ∧
      (a.write? = none ↔ a.Contains hollow) ∧ (a.display? = none ↔ a.Contains hollow) := by
  refine ⟨?_, ?_, equal_self_iff a, ?_, ?_, ?_, render_eq_none_iff _ a, render_eq_none_iff _ a⟩
  · intro h
    have hab := eq_of_equal h
    rwa [hab] at h ⊢
  · intro hab hbc
    rwa [eq_of_equal hab]
  · rw [copy_eq]
    exact equal_self_iff a
  · rw [copy_eq]
    exact ⟨rfl, rfl⟩
  · intro h
    rw [eq_of_equal h]
    exact ⟨rfl, rfl⟩

/-- A list that ends in a hollow pair equals itself and has no text; a list with an element of an
unknown kind has a text and does not equal itself. -/
theorem equal_laws_hollow :
    let a : Value := list [char (-1), bytes [0]] hollow
    let b : Value := list [a, unknown 9]
    a.equal a.copy ∧ a.equal a ∧ a.Contains hollow ∧ a.write? = none ∧ a.display? = none ∧
      b.Contains (unknown 9) ∧ ¬b.equal b ∧ ¬b.equal b.copy := by
  intro a b
  have hhollow : a.Contains hollow := .right (.right (.self hollow))
  have hunknown : b.Contains (unknown 9) := .right (.left (.self (unknown 9)))
  have haa : a.equal a.copy := by decide
  obtain ⟨-, -, -, -, -, -, hwrite, hdisplay⟩ := equal_laws a a a
  obtain ⟨hsymm, htrans, -⟩ := equal_laws a a.copy a
  obtain ⟨-, -, hself, hcopy, -⟩ := equal_laws b b b
  refine ⟨haa, htrans haa (hsymm haa), hhollow, hwrite.2 hhollow, hdisplay.2 hhollow, hunknown,
    ?_, ?_⟩
  · intro h
    exact hself.1 h 9 hunknown
  · intro h
    exact hcopy.1 h 9 hunknown

end MiniScheme.Value
