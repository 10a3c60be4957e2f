import MiniScheme.Position
import MiniScheme.Value

/-! Syntax trees. -/
namespace MiniScheme

/-- A tree that a host builds may have `missing` parts, and `foreign` nodes that the language does
not know; a tree read from source has neither. -/
inductive Expr where
  | empty (pos : Position)
  | static (value : Value) (pos : Position)
  | reference (name : Bytes) (pos : Position)
  | define (name : Bytes) (body : Expr) (pos : Position)
  | call (name : Bytes) (args : List Expr) (pos : Position)
  | foreign (typeName : Bytes) (pos : Position)
  | missing
deriving Repr, Inhabited

namespace Expr

/-- A missing part has no position of its own, and is given the start of the source. -/
def pos : Expr → Position
  | empty pos | static _ pos | reference _ pos => pos
  | define _ _ pos | call _ _ pos | foreign _ pos => pos
  | missing => {}

mutual

/-- Whether two trees are the same. -/
def same : Expr → Expr → Bool
  | empty p, empty q => p = q
  | static v p, static w q => v = w ∧ p = q
  | reference m p, reference n q => m = n ∧ p = q
  | define m a p, define n b q => m = n ∧ same a b ∧ p = q
  | call m as p, call n bs q => m = n ∧ sameAll as bs ∧ p = q
  | foreign m p, foreign n q => m = n ∧ p = q
  | missing, missing => true
  | _, _ => false

/-- Whether two lists of trees are the same. -/
def sameAll : List Expr → List Expr → Bool
  | [], [] => true
  | a :: as, b :: bs => same a b && sameAll as bs
  | _, _ => false

end

mutual

theorem same_iff (a b : Expr) : same a b = true ↔ a = b := by
  cases a with
  | define m a p => cases b <;> simp [same, same_iff a]
  | call m as p => cases b <;> simp [same, sameAll_iff as]
  | _ => cases b <;> simp [same]

theorem sameAll_iff (as bs : List Expr) : sameAll as bs = true ↔ as = bs := by
  cases as with
  | nil => cases bs <;> simp [sameAll]
  | cons a as => cases bs <;> simp [sameAll, same_iff a, sameAll_iff as]

end

instance : DecidableEq Expr := fun a b => decidable_of_iff _ (same_iff a b)

end Expr

end MiniScheme
