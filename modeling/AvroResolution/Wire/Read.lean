import AvroResolution.Wire.Varint

/-!
# Reading scalars

One reader for each scalar of the binary format.  Integers are folded varints,
floating-point numbers are their bits with the lowest byte first, and strings
and bytes are preceded by their length.

The items of a collection come in blocks.  `Reader.blockCount` reads the number
of items in the next block, `Reader.blocks` all blocks up to the empty one.
-/

namespace AvroResolution

/-- The number whose bytes, lowest first, are given. -/
def littleEndian : List UInt8 → Nat
  | [] => 0
  | byte :: rest => byte.toNat + 256 * littleEndian rest

namespace Reader

/-! ## Scalars -/

def boolean : Reader Bool := do
  let byte ← Reader.byte
  if byte = 0 then return false
  else if byte = 1 then return true
  else throw (.data (.boolean byte))

def long : Reader Int64 := Reader.zigzag

/-- A folded varint that must fit in 32 bits. -/
def int : Reader Int32 := do
  let value ← Reader.long
  if -2147483648 ≤ value.toInt ∧ value.toInt ≤ 2147483647 then
    return Int32.ofInt value.toInt
  else
    throw (.data (.intOverflow value))

def float : Reader Binary32 := do
  let bytes ← Reader.take 4
  return ⟨UInt32.ofNat (littleEndian bytes)⟩

def double : Reader Binary64 := do
  let bytes ← Reader.take 8
  return ⟨UInt64.ofNat (littleEndian bytes)⟩

/-- Bytes after their length. -/
def bytes : Reader (List UInt8) := do
  let length ← Reader.long
  if length < 0 then
    throw (.data (.negativeLength length))
  else
    Reader.take length.toInt.toNat

/-- A string after the length of its encoding. -/
def string : Reader String := do
  let content ← Reader.bytes
  Reader.ofExcept .notText (decodeUtf8 content)

/-- Bytes of a known length. -/
def fixed (size : Nat) : Reader (List UInt8) := Reader.take size

/-- The index of one of `count` union branches. -/
def branchIndex (count : Nat) : Reader (Fin count) := do
  let index ← Reader.long
  if h : 0 ≤ index ∧ index.toInt.toNat < count then
    return ⟨index.toInt.toNat, h.2⟩
  else
    throw (.data (.branchIndex index count))

/-! ## Blocks -/

/-- The number of items in a block.  A negative count stands for its absolute
value and is followed by the size of the block in bytes, which is not needed. -/
def blockCount : Reader Nat := do
  let count ← Reader.long
  if count < 0 then
    let _ ← Reader.long
    return count.toInt.natAbs
  else
    return count.toInt.natAbs

/-- Applies `step` to `state`, `count` times. -/
def iterate {σ : Type} (step : σ → Reader σ) : (count : Nat) → σ → Reader σ
  | 0, state => return state
  | count + 1, state => do
    let next ← step state
    iterate step count next

/-- Applies `step` to `state` once for each item of the coming blocks, of which
there are fewer than `limit`. -/
def blocksWithin {σ : Type} (step : σ → Reader σ) : (limit : Nat) → σ → Reader σ
  | 0, _ => throw .endless
  | limit + 1, state => do
    let count ← Reader.blockCount
    if count = 0 then
      return state
    else
      let next ← iterate step count state
      blocksWithin step limit next

/-- Applies `step` to `state` once for each item of the coming blocks.  Each
block takes a byte at least, so there are no more blocks than bytes. -/
def blocks {σ : Type} (step : σ → Reader σ) (state : σ) : Reader σ := do
  let remaining ← Reader.remaining
  blocksWithin step (remaining + 1) state

end Reader

end AvroResolution
