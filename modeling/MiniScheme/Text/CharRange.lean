/-! Sets of characters given by ascending ranges of code points. -/
namespace MiniScheme.Text

/-- Whether a code point lies in one of the ranges, which ascend and include both their ends. -/
def inRanges : List (Nat × Nat) → Nat → Bool
  | [], _ => false
  | (low, high) :: ranges, code => low ≤ code && (code ≤ high || inRanges ranges code)

end MiniScheme.Text
