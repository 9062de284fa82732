/-!
# Ranges of characters

A property of characters that a standard lists is kept as a table of ranges of code
points, both ends included, in increasing order.
-/

namespace LetPoly.Text

/-- Ranges of code points, both ends included. -/
abbrev Ranges := List (Nat × Nat)

/-- Whether a character lies in one of the ranges. -/
def Ranges.contains (rs : Ranges) (c : Char) : Bool :=
  rs.any fun r => decide (r.1 ≤ c.toNat) && decide (c.toNat ≤ r.2)

end LetPoly.Text
