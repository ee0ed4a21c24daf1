/-
MathMarkup/Text/Ranges.lean

Sets of code points as lists of ranges, the form in which the properties of
characters are tabulated.
-/
namespace MathMarkup

/-- Ranges of code points, each with its first and its last member. -/
abbrev Ranges := List (Nat × Nat)

/-- Whether a number lies in one of the ranges, ends included. -/
def Ranges.contains (rs : Ranges) (n : Nat) : Bool :=
  rs.any fun (low, high) => low ≤ n && n ≤ high

end MathMarkup
