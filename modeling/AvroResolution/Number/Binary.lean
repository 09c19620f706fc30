import AvroResolution.Number.Format

/-!
# Floats and doubles

`Binary32` and `Binary64` are the values of the types `float` and `double`,
kept as their bits, so that two values are equal exactly when their bits are.

The conversions round to nearest, a tie going to the even pattern: `ofInt` from
an integer, `Binary32.toBinary64` and `Binary64.toBinary32` between the two.
`Binary64.sameValue` compares two numbers as numbers.
-/

namespace AvroResolution

/-- A value of type `float`. -/
structure Binary32 where
  bits : UInt32
deriving DecidableEq, Repr, Inhabited

/-- A value of type `double`. -/
structure Binary64 where
  bits : UInt64
deriving DecidableEq, Repr, Inhabited

namespace Binary32

/-- Whether the sign bit is set. -/
def negative (x : Binary32) : Bool := 0x80000000 ≤ x.bits.toNat

/-- The bits below the sign. -/
def pattern (x : Binary32) : Nat := x.bits.toNat % 0x80000000

/-- The value with the given sign and pattern. -/
def ofPattern (negative : Bool) (pattern : Nat) : Binary32 :=
  ⟨UInt32.ofNat (pattern + if negative then 0x80000000 else 0)⟩

/-- The quiet NaN. -/
def nan : Binary32 := ofPattern false Format.binary32.quietNaN

def isNaN (x : Binary32) : Bool := Format.binary32.infinity < x.pattern

/-- The nearest `float` to an integer. -/
def ofInt (n : Int) : Binary32 :=
  ofPattern (n < 0) (Format.binary32.nearest (n.natAbs * Nat.pow 2 Format.binary32.finest) 1)

end Binary32

namespace Binary64

/-- Whether the sign bit is set. -/
def negative (x : Binary64) : Bool := 0x8000000000000000 ≤ x.bits.toNat

/-- The bits below the sign. -/
def pattern (x : Binary64) : Nat := x.bits.toNat % 0x8000000000000000

/-- The value with the given sign and pattern. -/
def ofPattern (negative : Bool) (pattern : Nat) : Binary64 :=
  ⟨UInt64.ofNat (pattern + if negative then 0x8000000000000000 else 0)⟩

/-- The quiet NaN. -/
def nan : Binary64 := ofPattern false Format.binary64.quietNaN

def isNaN (x : Binary64) : Bool := Format.binary64.infinity < x.pattern

def isFinite (x : Binary64) : Bool := x.pattern < Format.binary64.infinity

/-- The nearest `double` to an integer. -/
def ofInt (n : Int) : Binary64 :=
  ofPattern (n < 0) (Format.binary64.nearest (n.natAbs * Nat.pow 2 Format.binary64.finest) 1)

/-- Equality of numbers: both zeros are equal, and a NaN equals nothing. -/
def sameValue (x y : Binary64) : Bool :=
  !x.isNaN && !y.isNaN && (x = y || (x.pattern = 0 && y.pattern = 0))

/-- The nearest `float`. -/
def toBinary32 (x : Binary64) : Binary32 :=
  .ofPattern x.negative (Format.binary64.convert Format.binary32 x.pattern)

end Binary64

/-- The same number as a `double`. -/
def Binary32.toBinary64 (x : Binary32) : Binary64 :=
  .ofPattern x.negative (Format.binary32.convert Format.binary64 x.pattern)

end AvroResolution
