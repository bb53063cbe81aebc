/-!
# Ranges of characters

Sets of characters given by the ranges of their code points, in the order of the code points.
-/

namespace GotoFree

/-- Ranges of code points, each with its first and its last one. -/
abbrev Ranges := List (Nat × Nat)

/-- Whether a character lies in one of some ranges. -/
def isIn (ranges : Ranges) (c : Char) : Bool :=
  ranges.any fun (first, last) => first ≤ c.toNat && c.toNat ≤ last

end GotoFree
