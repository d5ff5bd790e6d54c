/-!
# Ranges of code points

Sets of characters are given as lists of disjoint ranges in ascending order, both ends included.
-/

namespace LuaSyntax.Text

abbrev CodeRange := Nat × Nat

/-- Whether `n` lies in one of the ranges, which ascend. -/
def inRanges (n : Nat) : List CodeRange → Bool
  | [] => false
  | (lo, hi) :: ranges => if n < lo then false else n ≤ hi || inRanges n ranges

end LuaSyntax.Text
