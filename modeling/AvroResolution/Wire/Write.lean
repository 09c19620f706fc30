import AvroResolution.Wire.Varint

/-!
# Writing scalars

A `Step` writes one scalar of the binary format; `Step.encode` gives the bytes it
writes.  A collection is written as one block: an item count, the items, and a
count of zero.

An `Encoder` collects the bytes of its steps.
-/

namespace AvroResolution

/-- The lowest `width` bytes of a number, lowest first. -/
def littleEndianBytes : (width : Nat) → Nat → List UInt8
  | 0, _ => []
  | width + 1, n => UInt8.ofNat n :: littleEndianBytes width (n / 256)

/-- One scalar to write. -/
inductive Step where
  | null
  | boolean (value : Bool)
  | int (value : Int32)
  | long (value : Int64)
  | float (value : Binary32)
  | double (value : Binary64)
  /-- Bytes after their length. -/
  | bytes (value : List UInt8)
  /-- A string after the length of its encoding. -/
  | string (value : String)
  /-- Bytes alone. -/
  | fixed (value : List UInt8)
  /-- The ordinal of an enum symbol. -/
  | ordinal (value : Nat)
  /-- The index of a union branch. -/
  | index (value : Nat)
  /-- The number of items in a block; zero ends the blocks. -/
  | count (value : Nat)

namespace Step

/-- Bytes after their length. -/
def lengthPrefixed (content : List UInt8) : List UInt8 :=
  zigzagBytes (Int64.ofNat content.length) ++ content

/-- The bytes that a step writes.  Counts are written as 64-bit integers and
wrap around beyond them. -/
def encode : Step → List UInt8
  | .null => []
  | .boolean value => [if value then 1 else 0]
  | .int value => zigzagBytes (Int64.ofInt value.toInt)
  | .long value => zigzagBytes value
  | .float value => littleEndianBytes 4 value.bits.toNat
  | .double value => littleEndianBytes 8 value.bits.toNat
  | .bytes value => lengthPrefixed value
  | .string value => lengthPrefixed (encodeUtf8 value)
  | .fixed value => value
  | .ordinal value => zigzagBytes (Int64.ofNat value)
  | .index value => zigzagBytes (Int64.ofNat value)
  | .count value => zigzagBytes (Int64.ofNat value)

end Step

/-- The bytes of the steps taken so far. -/
structure Encoder where
  bytes : List UInt8 := []

namespace Encoder

/-- Takes a step. -/
def write (encoder : Encoder) (step : Step) : Encoder :=
  ⟨encoder.bytes ++ step.encode⟩

def length (encoder : Encoder) : Nat :=
  encoder.bytes.length

def isEmpty (encoder : Encoder) : Bool :=
  encoder.bytes.isEmpty

end Encoder

end AvroResolution
