import AvroResolution.Decoding.Fault

/-!
# Reading bytes

An `Input` is a byte string that knows its length.  A `Reader` takes bytes off
the front of an input and gives a value or a fault; either way the input that is
left is part of the answer.

Every reader is made from `Reader.byte` and `Reader.take`.  A `take` that finds
too few bytes takes none of them.
-/

namespace AvroResolution

/-! ## Inputs -/

/-- A byte string that knows its length. -/
structure Input where
  bytes : List UInt8
  length : Nat
  length_eq : length = bytes.length

namespace Input

@[ext] theorem ext {x y : Input} (h : x.bytes = y.bytes) : x = y := by
  rcases x with ⟨bytes, length, rfl⟩
  rcases y with ⟨_, _, rfl⟩
  cases h
  rfl

/-- A byte string as an input. -/
def ofList (bytes : List UInt8) : Input := ⟨bytes, bytes.length, rfl⟩

@[simp] theorem bytes_ofList (bytes : List UInt8) : (ofList bytes).bytes = bytes := rfl

@[simp] theorem ofList_bytes (input : Input) : ofList input.bytes = input := ext rfl

/-- The input after its first `count` bytes. -/
def drop (input : Input) (count : Nat) : Input :=
  ⟨input.bytes.drop count, input.length - count, by simp [input.length_eq]⟩

@[simp] theorem bytes_drop (input : Input) (count : Nat) :
    (input.drop count).bytes = input.bytes.drop count := rfl

end Input

/-! ## Readers -/

/-- A computation that takes bytes off the front of an input. -/
abbrev Reader := EStateM DecodeFault Input

namespace Reader

/-- The number of bytes that are left. -/
def remaining : Reader Nat := fun input => .ok input.length input

/-- The next byte. -/
def byte : Reader UInt8 := fun input =>
  match input.bytes with
  | [] => .error .endOfInput input
  | first :: _ => .ok first (input.drop 1)

/-- The next `count` bytes, all or none of them. -/
def take (count : Nat) : Reader (List UInt8) := fun input =>
  if count ≤ input.length then
    .ok (input.bytes.take count) (input.drop count)
  else
    .error .endOfInput input

/-- The answer of a pure step. -/
def ofExcept {ε α : Type} (fault : ε → DecodeFault) : Except ε α → Reader α
  | .ok value => pure value
  | .error cause => throw (fault cause)

end Reader

end AvroResolution
