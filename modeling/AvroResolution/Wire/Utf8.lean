import AvroResolution.Number.Integer

/-!
# UTF-8

`decodeUtf8` reads bytes as text.  Bytes that are not UTF-8 are refused with the
place of the first bad sequence: the index at which it starts, and how many of
its bytes could have started a character.  There is no such number when the
bytes end inside a sequence that is good so far.

* `Utf8Lead.ofByte?` says which bytes may follow the first byte of a character.
* `Utf8Fault.locate` finds the first bad sequence.
-/

namespace AvroResolution

/-- Where and how bytes stop being UTF-8. -/
structure Utf8Fault where
  /-- Where the bad sequence starts. -/
  index : Nat
  /-- The length of its longest good beginning, unless the bytes end there. -/
  length? : Option Nat
deriving DecidableEq, Repr

def Utf8Fault.message (fault : Utf8Fault) : String :=
  match fault.length? with
  | some length =>
    "invalid utf-8 sequence of " ++ integerText length ++ " bytes from index " ++
      integerText fault.index
  | none => "incomplete utf-8 byte sequence from index " ++ integerText fault.index

/-- What must follow the bytes of a character read so far. -/
structure Utf8Lead where
  /-- How many bytes are still to come. -/
  owed : Nat
  /-- The least value of the next byte. -/
  low : UInt8
  /-- The greatest value of the next byte. -/
  high : UInt8

/-- What must follow the first byte of a character.  Some bytes start none. -/
def Utf8Lead.ofByte? (byte : UInt8) : Option Utf8Lead :=
  if byte < 0x80 then some ⟨0, 0x80, 0xBF⟩
  else if byte < 0xC2 then none
  else if byte < 0xE0 then some ⟨1, 0x80, 0xBF⟩
  else if byte = 0xE0 then some ⟨2, 0xA0, 0xBF⟩
  else if byte = 0xED then some ⟨2, 0x80, 0x9F⟩
  else if byte < 0xF0 then some ⟨2, 0x80, 0xBF⟩
  else if byte = 0xF0 then some ⟨3, 0x90, 0xBF⟩
  else if byte < 0xF4 then some ⟨3, 0x80, 0xBF⟩
  else if byte = 0xF4 then some ⟨3, 0x80, 0x8F⟩
  else none

namespace Utf8Fault

/-- The first bad sequence of `bytes`, which are preceded by a sequence that
starts at `start`, has `taken` bytes and is continued as `lead` says. -/
def locateFrom (start taken : Nat) (lead : Utf8Lead) : List UInt8 → Utf8Fault
  | [] => ⟨start, none⟩
  | byte :: rest =>
    match lead.owed with
    | 0 =>
      match Utf8Lead.ofByte? byte with
      | none => ⟨start + taken, some 1⟩
      | some next => locateFrom (start + taken) 1 next rest
    | owed + 1 =>
      if lead.low ≤ byte ∧ byte ≤ lead.high then
        locateFrom start (taken + 1) ⟨owed, 0x80, 0xBF⟩ rest
      else
        ⟨start, some taken⟩

/-- The first bad sequence of bytes that are not UTF-8.  Of bytes that are
UTF-8 the answer says nothing. -/
def locate (bytes : List UInt8) : Utf8Fault :=
  locateFrom 0 0 ⟨0, 0x80, 0xBF⟩ bytes

end Utf8Fault

/-- The text that bytes encode. -/
def decodeUtf8 (bytes : List UInt8) : Except Utf8Fault String :=
  match String.fromUTF8? ⟨bytes.toArray⟩ with
  | some text => .ok text
  | none => .error (Utf8Fault.locate bytes)

/-- The bytes that encode a text. -/
def encodeUtf8 (text : String) : List UInt8 :=
  text.toUTF8.data.toList

end AvroResolution
