import AvroResolution.Wire.Input

/-!
# Variable-length integers

An unsigned integer is written in groups of seven bits, the lowest group first.
Every byte but the last has its high bit set.  Ten bytes are enough for 64 bits;
a reader refuses an eleventh.

A signed integer is first folded onto the unsigned ones: 0, -1, 1, -2, 2, and so
on.

* `varintBytes` and `Reader.varint` write and read an unsigned integer.
* `zigzag` and `unzigzag` fold and unfold a signed one.
* `zigzagBytes` and `Reader.zigzag` write and read a signed one.
-/

namespace AvroResolution

/-! ## Unsigned integers -/

/-- The groups of a number, of which at most `more` are followed by another. -/
def varintGroups : (more : Nat) → Nat → List UInt8
  | 0, n => [UInt8.ofNat n]
  | more + 1, n =>
    if n < 128 then [UInt8.ofNat n]
    else UInt8.ofNat (n % 128 + 128) :: varintGroups more (n / 128)

/-- The bytes of an unsigned integer. -/
def varintBytes (value : UInt64) : List UInt8 :=
  varintGroups 9 value.toNat

/-- The number whose groups come next, in at most `groups` bytes. -/
def Reader.varintGroups : (groups : Nat) → Reader Nat
  | 0 => throw .overlongVarint
  | groups + 1 => do
    let byte ← Reader.byte
    if byte < 128 then
      return byte.toNat
    else
      let rest ← Reader.varintGroups groups
      return byte.toNat - 128 + 128 * rest

/-- An unsigned integer.  Ten groups hold 70 bits, of which the lowest 64
count. -/
def Reader.varint : Reader UInt64 := do
  let number ← Reader.varintGroups 10
  return UInt64.ofNat number

/-! ## Signed integers -/

/-- The place of a signed integer in the order 0, -1, 1, -2, 2, …. -/
def zigzag (value : Int64) : UInt64 :=
  match value.toInt with
  | .ofNat n => UInt64.ofNat (2 * n)
  | .negSucc n => UInt64.ofNat (2 * n + 1)

/-- The signed integer at a place of the order 0, -1, 1, -2, 2, …. -/
def unzigzag (place : UInt64) : Int64 :=
  if place.toNat % 2 = 0 then
    Int64.ofInt (.ofNat (place.toNat / 2))
  else
    Int64.ofInt (.negSucc (place.toNat / 2))

/-- The bytes of a signed integer. -/
def zigzagBytes (value : Int64) : List UInt8 :=
  varintBytes (zigzag value)

/-- A signed integer. -/
def Reader.zigzag : Reader Int64 := do
  let place ← Reader.varint
  return unzigzag place

end AvroResolution
