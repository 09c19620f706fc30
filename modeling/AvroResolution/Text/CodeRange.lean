/-!
# Ranges of code points

A property of characters is a list of `CodeRange`s, each given by its first and
its last code point.  `CodeRange.anyHas` tells whether a character is in one of
them.
-/

namespace AvroResolution

/-- A run of code points, both ends included. -/
structure CodeRange where
  first : Nat
  last : Nat

namespace CodeRange

/-- Whether a character lies in the range. -/
def has (range : CodeRange) (c : Char) : Bool :=
  range.first ≤ c.toNat && c.toNat ≤ range.last

/-- Whether a character lies in one of the ranges. -/
def anyHas (ranges : List CodeRange) (c : Char) : Bool :=
  ranges.any (·.has c)

end CodeRange

end AvroResolution
