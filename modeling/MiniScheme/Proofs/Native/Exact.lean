import MiniScheme.Native.Arithmetic

/-! Word arithmetic against the integers. A result has an excess iff the exact result does not fit a
word, and is exact otherwise. -/
namespace MiniScheme

/-- The integers that fit a word. -/
def isNumber (n : Int) : Bool :=
  0 ≤ n ∧ n < UInt64.size

theorem isNumber_iff {n : Int} : isNumber n ↔ 0 ≤ n ∧ n < 18446744073709551616 := by
  unfold isNumber
  exact decide_eq_true_iff

theorem isNumber_toNat (n : UInt64) : isNumber n.toNat := by
  have hlt := n.toNat_lt
  rw [isNumber_iff]
  omega

namespace Native

/-- The result is `n` if that fits a word, and has an excess otherwise. -/
structure Wide.Represents (r : Wide) (n : Int) : Prop where
  excess : r.excess = 0 ↔ isNumber n
  word : isNumber n → (r.word.toNat : Int) = n

namespace Wide

theorem bit_eq_zero_iff {p : Prop} [Decidable p] : (if p then 1 else 0 : UInt64) = 0 ↔ ¬p := by
  split
  · rename_i h
    simp [h]
  · rename_i h
    simp [h]

theorem sum_represents (a b : UInt64) : (sum a b).Represents (a.toNat + b.toNat) := by
  have ha := a.toNat_lt
  have hb := b.toNat_lt
  have hword : (a + b).toNat = (a.toNat + b.toNat) % 2 ^ 64 := UInt64.toNat_add a b
  have hcarry : ¬a + b < a ↔ isNumber (a.toNat + b.toNat) := by
    rw [UInt64.lt_iff_toNat_lt, hword, isNumber_iff]
    omega
  constructor
  · exact bit_eq_zero_iff.trans hcarry
  · intro h
    rw [isNumber_iff] at h
    have hsum : (sum a b).word = a + b := rfl
    rw [hsum, hword]
    omega

theorem difference_represents (a b : UInt64) :
    (difference a b).Represents (a.toNat - b.toNat) := by
  have ha := a.toNat_lt
  have hborrow : ¬a < b ↔ isNumber (a.toNat - b.toNat) := by
    rw [UInt64.lt_iff_toNat_lt, isNumber_iff]
    omega
  constructor
  · exact bit_eq_zero_iff.trans hborrow
  · intro h
    have hle : b ≤ a := UInt64.not_lt.1 (hborrow.2 h)
    have hword : (difference a b).word.toNat = a.toNat - b.toNat := UInt64.toNat_sub_of_le a b hle
    rw [UInt64.le_iff_toNat_le] at hle
    rw [hword]
    omega

theorem product_represents (a b : UInt64) : (product a b).Represents (a.toNat * b.toNat) := by
  have hfit : isNumber (a.toNat * b.toNat) ↔ a.toNat * b.toNat < 18446744073709551616 := by
    rw [isNumber_iff]
    omega
  have hhigh : (product a b).excess.toNat = a.toNat * b.toNat / 18446744073709551616 := by
    have hlt : a.toNat * b.toNat < 18446744073709551616 * 18446744073709551616 :=
      Nat.mul_lt_mul'' a.toNat_lt b.toNat_lt
    exact Nat.mod_eq_of_lt (Nat.div_lt_of_lt_mul hlt)
  constructor
  · rw [hfit, ← UInt64.toNat_inj, hhigh, UInt64.toNat_zero, Nat.div_eq_zero_iff]
    omega
  · intro h
    have hword : (product a b).word.toNat = a.toNat * b.toNat := by
      exact (UInt64.toNat_mul a b).trans (Nat.mod_eq_of_lt (hfit.1 h))
    rw [hword]
    exact Int.natCast_mul ..

end Wide

/-- The reply to a result that represents `n` is `n` or a refusal. -/
theorem inWord_reply {r : Wide} {n : Int} (h : r.Represents n) (name : Bytes) (complaint : String)
    (a b : UInt64) :
    (isNumber n → ∃ w : UInt64, inWord name complaint a b r = .value (.number w) ∧ w.toNat = n) ∧
      (¬isNumber n → ∃ detail, inWord name complaint a b r = .refused (.typeMismatch detail)) := by
  constructor
  · intro hn
    exact ⟨r.word, if_pos (h.excess.2 hn), h.word hn⟩
  · intro hn
    exact ⟨_, if_neg fun hexcess => hn (h.excess.1 hexcess)⟩

end Native

inductive Operator where
  | add
  | subtract
  | multiply
deriving DecidableEq, Repr

namespace Operator

def native : Operator → Native
  | add => .add
  | subtract => .subtract
  | multiply => .multiply

def exact : Operator → Int → Int → Int
  | add, a, b => a + b
  | subtract, a, b => a - b
  | multiply, a, b => a * b

theorem native_mem (op : Operator) : op.native ∈ Native.arithmetic := by
  cases op with
  | add | subtract | multiply => simp [native, Native.arithmetic]

/-- An operator gives its exact result if that fits a word, and refuses otherwise. -/
theorem reply (op : Operator) (m : Machine) (a b : UInt64) :
    let r := (op.native.handler m [.number a, .number b]).2
    let n := op.exact a.toNat b.toNat
    (isNumber n → ∃ w : UInt64, r = .value (.number w) ∧ w.toNat = n) ∧
      (¬isNumber n → ∃ detail, r = .refused (.typeMismatch detail)) := by
  cases op with
  | add => exact Native.inWord_reply (Native.Wide.sum_represents a b) _ _ a b
  | subtract => exact Native.inWord_reply (Native.Wide.difference_represents a b) _ _ a b
  | multiply => exact Native.inWord_reply (Native.Wide.product_represents a b) _ _ a b

end Operator

inductive Comparison where
  | equals
  | less
deriving DecidableEq, Repr

namespace Comparison

def native : Comparison → Native
  | equals => .equals
  | less => .less

def exact : Comparison → Int → Int → Bool
  | equals, a, b => a = b
  | less, a, b => a < b

theorem native_mem (c : Comparison) : c.native ∈ Native.arithmetic := by
  cases c with
  | equals | less => simp [native, Native.arithmetic]

theorem reply (c : Comparison) (m : Machine) (a b : UInt64) :
    (c.native.handler m [.number a, .number b]).2 =
      .value (.boolean (c.exact a.toNat b.toNat)) := by
  cases c with
  | equals =>
    have hequal : (a == b) = decide ((a.toNat : Int) = b.toNat) := by
      rw [Bool.beq_eq_decide_eq]
      exact decide_eq_decide.2 (by rw [Int.ofNat_inj, UInt64.toNat_inj])
    exact congrArg (fun v => Reply.value (.boolean v)) hequal
  | less =>
    have hless : decide (a < b) = decide ((a.toNat : Int) < b.toNat) :=
      decide_eq_decide.2 (by rw [Int.ofNat_lt, UInt64.lt_iff_toNat_lt])
    exact congrArg (fun v => Reply.value (.boolean v)) hless

end Comparison

end MiniScheme
