import AvroResolution.Schema

/-!
# Promotions

A scalar that was written as one type may be read as a wider one, and strings
and bytes may be read as each other.  `Promotion` lists the pairs,
`Promotion.between?` finds the promotion of a pair of kinds.
-/

namespace AvroResolution

/-- A pair of types of which the first may be read as the second. -/
inductive Promotion where
  | intToLong
  | intToFloat
  | intToDouble
  | longToFloat
  | longToDouble
  | floatToDouble
  | stringToBytes
  | bytesToString
deriving DecidableEq, Repr

namespace Promotion

def all : List Promotion :=
  [.intToLong, .intToFloat, .intToDouble, .longToFloat, .longToDouble, .floatToDouble,
    .stringToBytes, .bytesToString]

/-- The type that was written. -/
def source : Promotion → Primitive
  | .intToLong => .int
  | .intToFloat => .int
  | .intToDouble => .int
  | .longToFloat => .long
  | .longToDouble => .long
  | .floatToDouble => .float
  | .stringToBytes => .string
  | .bytesToString => .bytes

/-- The type that is read. -/
def target : Promotion → Primitive
  | .intToLong => .long
  | .intToFloat => .float
  | .intToDouble => .double
  | .longToFloat => .float
  | .longToDouble => .double
  | .floatToDouble => .double
  | .stringToBytes => .bytes
  | .bytesToString => .string

/-- The promotion from `writer` to `reader`.  A type needs none to itself. -/
def between? : (writer reader : Kind) → Option Promotion
  | .primitive .int, .primitive .long => some .intToLong
  | .primitive .int, .primitive .float => some .intToFloat
  | .primitive .int, .primitive .double => some .intToDouble
  | .primitive .long, .primitive .float => some .longToFloat
  | .primitive .long, .primitive .double => some .longToDouble
  | .primitive .float, .primitive .double => some .floatToDouble
  | .primitive .string, .primitive .bytes => some .stringToBytes
  | .primitive .bytes, .primitive .string => some .bytesToString
  | _, _ => none

end Promotion

end AvroResolution
