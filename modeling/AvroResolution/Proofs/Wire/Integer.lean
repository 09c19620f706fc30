import AvroResolution.Proofs.Wire.Varint

/-!
# Where varints end

The first ten bytes of an input tell what reading an integer takes from it and gives.

* `Groups.ending?` is the place of the first byte that no group follows, among the first ten.
* `Groups.complete_of_ending?`: up to that place the bytes are the groups of one number.
  `Reader.varintGroups_of_unending`: where there is no such place, the reader takes all bytes
  that it may and fails.
* `Reader.GivesInteger` and `Reader.RefusesInteger` are what the readers of integers then do.
* `Reader.integer_run` is the result, for every input.
-/

namespace AvroResolution

namespace Groups

/-- The place of the first byte that no other group follows, if it is among the first ten. -/
def ending? (bytes : List UInt8) : Option Nat :=
  (bytes.take 10).findIdx? (· < 128)

theorem complete_append {front : List UInt8} {last : UInt8} (hfront : ∀ byte ∈ front, ¬byte < 128)
    (hlast : last < 128) : Complete (front ++ [last]) := by
  induction front with
  | nil => exact .last hlast
  | cons byte rest ih =>
    exact .more (hfront byte (.head _)) (ih fun other hother => hfront other (.tail _ hother))

/-- Up to the first byte that no other group follows, the bytes are the groups of one number. -/
theorem complete_of_ending? {bytes : List UInt8} {last : Nat} (h : ending? bytes = some last) :
    Complete (bytes.take (last + 1)) ∧ (bytes.take (last + 1)).length ≤ 10 := by
  obtain ⟨hlt, hlast, hfront⟩ := List.findIdx?_eq_some_iff_getElem.1 h
  rw [List.length_take] at hlt
  have hbytes : bytes.take (last + 1) = bytes.take last ++ [bytes[last]] :=
    List.take_succ_eq_append_getElem (by omega)
  constructor
  · rw [hbytes]
    refine complete_append ?_ (by simpa using hlast)
    intro byte hbyte
    obtain ⟨index, hindex, rfl⟩ := List.mem_take_iff_getElem.1 hbyte
    simpa using hfront index (by omega)
  · rw [List.length_take]
    omega

theorem of_ending?_eq_none {bytes : List UInt8} (h : ending? bytes = none) :
    ∀ byte ∈ bytes.take 10, ¬byte < 128 := by
  intro byte hbyte
  simpa using List.findIdx?_eq_none_iff.1 h byte hbyte

end Groups

namespace Reader

open Groups

/-- Where every byte says that another group follows, the reader takes as many as it may and
fails: for the end of the input, if there are fewer, or else for too many groups.  The induction is
on the groups that it may take. -/
theorem varintGroups_of_unending {groups : Nat} {bytes : List UInt8}
    (h : ∀ byte ∈ bytes.take groups, ¬byte < 128) :
    varintGroups groups (.ofList bytes) =
      if bytes.length < groups then .error .endOfInput (.ofList [])
      else .error .overlongVarint (.ofList (bytes.drop groups)) := by
  induction groups generalizing bytes with
  | zero => rfl
  | succ groups ih =>
    cases bytes with
    | nil => rfl
    | cons byte rest =>
      have hrest := ih fun other hother => h other (.tail _ hother)
      rw [varintGroups, bind_of_ok (byte_cons byte rest), if_neg (h byte (.head _)),
        List.length_cons, List.drop_succ_cons]
      by_cases hlt : rest.length < groups
      · rw [if_pos hlt] at hrest
        rw [if_pos (Nat.succ_lt_succ hlt), bind_of_error hrest]
      · rw [if_neg hlt] at hrest
        rw [if_neg (by omega), bind_of_error hrest]

/-! ## Readers of integers -/

/-- A signed integer that 32 bits hold. -/
def IsShort (integer : Int) : Prop :=
  -2 ^ 31 ≤ integer ∧ integer < 2 ^ 31

/-- The readers of integers give the number and leave the rest: as it is, as a signed integer, and
as a signed integer of 32 bits, or else fail for the integer behind it. -/
structure GivesInteger (input rest : Input) (number : Nat) : Prop where
  varint : ∃ value, Reader.varint input = .ok value rest ∧ value.toNat = number
  zigzag : ∃ value, Reader.zigzag input = .ok value rest ∧ value.toInt = unfolded number
  int : IsShort (unfolded number) →
    ∃ value, Reader.int input = .ok value rest ∧ value.toInt = unfolded number
  overflow : ¬IsShort (unfolded number) →
    ∃ value, Reader.int input = .error (.data (.intOverflow value)) rest ∧
      value.toInt = unfolded number

/-- The readers of integers fail alike and leave the rest. -/
structure RefusesInteger (input rest : Input) (fault : DecodeFault) : Prop where
  varint : Reader.varint input = .error fault rest
  zigzag : Reader.zigzag input = .error fault rest
  int : Reader.int input = .error fault rest

/-- A signed integer is read as the place that it has among the unsigned ones. -/
theorem givesInteger_of_varint {input rest : Input} {place : UInt64}
    (h : varint input = .ok place rest) : GivesInteger input rest place.toNat := by
  have hzigzag : zigzag input = .ok (unzigzag place) rest := bind_of_ok h
  have hinteger := toInt_unzigzag place
  have hint : int input = _ := bind_of_ok hzigzag
  rw [hinteger] at hint
  refine ⟨⟨place, h, rfl⟩, ⟨_, hzigzag, hinteger⟩, ?_, ?_⟩
  · rintro ⟨hlower, hupper⟩
    rw [if_pos (by omega)] at hint
    exact ⟨_, hint, Int32.toInt_ofInt_of_le (by omega) (by omega)⟩
  · intro hlong
    rw [IsShort] at hlong
    rw [if_neg (by omega)] at hint
    exact ⟨_, hint, hinteger⟩

theorem refusesInteger_of_varint {input rest : Input} {fault : DecodeFault}
    (h : varint input = .error fault rest) : RefusesInteger input rest fault := by
  have hzigzag : zigzag input = .error fault rest := bind_of_error h
  exact ⟨h, hzigzag, bind_of_error hzigzag⟩

/-- The first of ten bytes that no other group follows ends the integer: the bytes up to there are
taken, and the number that they spell, modulo 2 to the power of 64, is given.  Without such a byte
an input of fewer than ten bytes is used up and ends too soon, and of any other ten bytes are
taken and refused.  A signed integer of 32 bits is refused besides, with the same bytes taken, if
and only if it is out of their range. -/
theorem integer_run (input : Input) :
    match ending? input.bytes with
    | some last =>
      GivesInteger input (input.drop (last + 1))
        (number (input.bytes.take (last + 1)) % 2 ^ 64)
    | none =>
      if input.length < 10 then RefusesInteger input (.ofList []) .endOfInput
      else RefusesInteger input (input.drop 10) .overlongVarint := by
  cases hending : ending? input.bytes with
  | some last =>
    obtain ⟨hcomplete, hlength⟩ := complete_of_ending? hending
    have hrun := hcomplete.varint_run (input.bytes.drop (last + 1))
    have hdrop : input.drop (last + 1) = .ofList (input.bytes.drop (last + 1)) := Input.ext rfl
    rw [List.take_append_drop, Input.ofList_bytes, if_pos hlength, ← hdrop] at hrun
    have hgives := givesInteger_of_varint hrun
    rwa [UInt64.toNat_ofNat'] at hgives
  | none =>
    have hgroups := varintGroups_of_unending (of_ending?_eq_none hending)
    have hdrop : input.drop 10 = .ofList (input.bytes.drop 10) := Input.ext rfl
    rw [Input.ofList_bytes, ← input.length_eq, ← hdrop] at hgroups
    dsimp only
    by_cases hlt : input.length < 10
    · rw [if_pos hlt] at hgroups ⊢
      exact refusesInteger_of_varint (bind_of_error hgroups)
    · rw [if_neg hlt] at hgroups ⊢
      exact refusesInteger_of_varint (bind_of_error hgroups)

end Reader

end AvroResolution
