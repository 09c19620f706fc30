import AvroResolution.Proofs.Wire.Varint

/-!
# The shortest varints

An integer is written in as few bytes as any that are read as it.

* `length_varintGroups_le`: a number takes no more groups than it needs.
* `Groups.Complete.length_varintBytes_le`: so no other groups that are read as the number are
  fewer, not even if bits of theirs are dropped.
* `zigzag_unzigzag`: every place is that of one signed integer.  `zigzag_eq_xor` and
  `unzigzag_eq_xor` fold and unfold by shifts of 64 bits.
* `Reader.ReadsShortest` is the property, `Reader.readsShortest_integers` the result.
-/

namespace AvroResolution

/-! ## Unsigned integers -/

theorem length_varintGroups_pos (more n : Nat) : 1 ≤ (varintGroups more n).length := by
  cases more with
  | zero => exact Nat.le_refl 1
  | succ more =>
    rw [varintGroups]
    split
    · exact Nat.le_refl 1
    · exact Nat.succ_le_succ (Nat.zero_le _)

/-- A number below a power of 128 takes no more groups than the power has factors.  The induction
is on the groups that may follow. -/
theorem length_varintGroups_le (more : Nat) {n count : Nat} (h : n < 128 ^ (count + 1)) :
    (varintGroups more n).length ≤ count + 1 := by
  induction more generalizing n count with
  | zero => exact Nat.succ_le_succ (Nat.zero_le _)
  | succ more ih =>
    rw [varintGroups]
    split
    · exact Nat.succ_le_succ (Nat.zero_le _)
    · rename_i hlarge
      cases count with
      | zero => omega
      | succ count =>
        rw [Nat.pow_succ] at h
        exact Nat.succ_le_succ (ih (by omega))

theorem length_varintBytes_le_ten (value : UInt64) : (varintBytes value).length ≤ 10 := by
  have hvalue := value.toNat_lt
  exact length_varintGroups_le 9 (by omega)

/-- No groups that are read as a number are fewer than those that are written for it.  What is
read is not more than what the groups spell. -/
theorem Groups.Complete.length_varintBytes_le {bytes : List UInt8} (h : Complete bytes)
    {value : UInt64} (hvalue : value.toNat = number bytes % 2 ^ 64) :
    (varintBytes value).length ≤ bytes.length := by
  obtain ⟨front, last, rfl, _⟩ := h.exists_last
  have hnumber := number_lt (front ++ [last])
  have hle := Nat.mod_le (number (front ++ [last])) (2 ^ 64)
  rw [List.length_append, List.length_singleton] at hnumber ⊢
  exact length_varintGroups_le 9 (by omega)

/-! ## Signed integers -/

theorem unfolded_inj {place other : Nat} (h : unfolded place = unfolded other) : place = other := by
  rw [unfolded, unfolded] at h
  split at h <;> split at h <;> omega

theorem unfolded_zigzag (value : Int64) : unfolded (zigzag value).toNat = value.toInt := by
  rw [← toInt_unzigzag, unzigzag_zigzag]

theorem zigzag_unzigzag (place : UInt64) : zigzag (unzigzag place) = place := by
  rw [← UInt64.toNat_inj]
  apply unfolded_inj
  rw [unfolded_zigzag, toInt_unzigzag]

/-! ### Folding by shifts -/

/-- The sign of an integer in all of its bits. -/
theorem shiftRight_63 (value : Int64) : value >>> 63 = if value.toInt < 0 then -1 else 0 := by
  have hlower := value.le_toInt
  have hupper := value.toInt_lt
  have hshift : (value >>> 63).toInt = value.toInt / 2 ^ 63 := by
    rw [← Int64.toInt_toBitVec, Int64.toBitVec_shiftRight, BitVec.toInt_sshiftRight',
      Int64.toInt_toBitVec, Int.shiftRight_eq_div_pow]
    rfl
  rw [← Int64.toInt_inj, hshift]
  split
  · have hneg : (-1 : Int64).toInt = -1 := rfl
    omega
  · have hzero : (0 : Int64).toInt = 0 := rfl
    omega

theorem toNat_shiftLeft_one (value : Int64) :
    ((value <<< 1).toUInt64.toNat : Int) = 2 * value.toInt % 2 ^ 64 := by
  have hshift : (value <<< 1).toBitVec = value.toBitVec <<< 1 := Int64.toBitVec_shiftLeft value 1
  have hbits : (value <<< 1).toUInt64.toNat = 2 * value.toBitVec.toNat % 2 ^ 64 := by
    rw [show (value <<< 1).toUInt64.toNat = (value <<< 1).toBitVec.toNat from rfl, hshift,
      BitVec.toNat_shiftLeft, Nat.shiftLeft_eq, Nat.mul_comm]
  rw [hbits, show value.toInt = value.toBitVec.toInt from rfl, BitVec.toInt_eq_toNat_cond]
  split <;> omega

/-- The place of a signed integer is its double, of which every bit is flipped if it is negative. -/
theorem zigzag_eq_xor (value : Int64) :
    zigzag value = (value <<< 1 ^^^ value >>> 63).toUInt64 := by
  have hlower := value.le_toInt
  have hupper := value.toInt_lt
  have hdouble := toNat_shiftLeft_one value
  rw [← UInt64.toNat_inj]
  apply unfolded_inj
  rw [unfolded_zigzag, shiftRight_63]
  split
  · have hsize : UInt64.size = 2 ^ 64 := rfl
    rw [Int64.xor_neg_one, Int64.toUInt64_not, UInt64.toNat_not, unfolded]
    omega
  · rw [Int64.xor_zero, unfolded]
    omega

theorem toInt_shiftRight_one (place : UInt64) :
    (place >>> 1).toInt64.toInt = place.toNat / 2 := by
  have hlt := place.toNat_lt
  have hshift : (place >>> 1).toNat = place.toNat / 2 := by
    rw [UInt64.toNat_shiftRight, Nat.shiftRight_eq_div_pow]
    rfl
  rw [show (place >>> 1).toInt64.toInt = (place >>> 1).toBitVec.toInt from rfl,
    BitVec.toInt_eq_toNat_cond, UInt64.toNat_toBitVec, hshift, if_pos (by omega)]
  omega

/-- The lowest bit of a place. -/
theorem and_one_eq (place : UInt64) :
    place &&& 1 = if place.toNat % 2 = 0 then 0 else 1 := by
  have hbit : (place &&& 1).toNat = place.toNat % 2 := by
    rw [UInt64.toNat_and]
    exact Nat.and_one_is_mod _
  rw [← UInt64.toNat_inj, hbit]
  split
  · assumption
  · rename_i hodd
    exact Nat.mod_two_ne_zero.1 hodd

/-- The integer at a place is half of it, of which every bit is flipped if the place is odd. -/
theorem unzigzag_eq_xor (place : UInt64) :
    unzigzag place = (place >>> 1).toInt64 ^^^ -(place &&& 1).toInt64 := by
  have hlt := place.toNat_lt
  have hhalf := toInt_shiftRight_one place
  rw [← Int64.toInt_inj, toInt_unzigzag, unfolded, and_one_eq]
  split
  · rw [show -(0 : UInt64).toInt64 = 0 from rfl, Int64.xor_zero, hhalf]
    rfl
  · rw [show -(1 : UInt64).toInt64 = -1 from rfl, Int64.xor_neg_one, Int64.toInt_not, hhalf,
      Int.bmod_eq_of_le (by omega) (by omega)]
    omega

/-! ## Written and read -/

namespace Reader

/-- What is written is read back from before any bytes.  It is one byte at least and `most` at
most, and no fewer bytes are read as the same. -/
structure ReadsShortest {α : Type} (read : Reader α) (write : α → List UInt8) (most : Nat) :
    Prop where
  back : ∀ value tail, read (.ofList (write value ++ tail)) = .ok value (.ofList tail)
  pos : ∀ value, 1 ≤ (write value).length
  bounded : ∀ value, (write value).length ≤ most
  shortest : ∀ value input rest, read input = .ok value rest →
    (write value).length + rest.length ≤ input.length

theorem readsShortest_varint : ReadsShortest varint varintBytes 10 := by
  refine ⟨varint_run, fun value => length_varintGroups_pos 9 _, length_varintBytes_le_ten, ?_⟩
  intro value input rest h
  obtain ⟨taken, htaken, hcomplete, _, hvalue⟩ := exists_complete h
  have hle := hcomplete.length_varintBytes_le hvalue
  rw [input.length_eq, rest.length_eq, htaken, List.length_append]
  omega

theorem readsShortest_zigzag : ReadsShortest zigzag zigzagBytes 10 := by
  refine ⟨long_run, fun value => length_varintGroups_pos 9 _,
    fun value => length_varintBytes_le_ten _, ?_⟩
  intro value input rest h
  obtain ⟨place, middle, hplace, h⟩ := exists_of_bind h
  injection h with hvalue hrest
  subst hvalue hrest
  rw [zigzagBytes, zigzag_unzigzag]
  exact readsShortest_varint.shortest place input middle hplace

/-- Every unsigned and every signed integer is read back from what is written for it: one byte to
ten, and no fewer are read as the same.  A signed integer is written and read as an unsigned one,
its double or the complement of its double. -/
theorem readsShortest_integers :
    ReadsShortest varint varintBytes 10 ∧ ReadsShortest zigzag zigzagBytes 10 ∧
      (∀ value, zigzagBytes value = varintBytes (value <<< 1 ^^^ value >>> 63).toUInt64) ∧
        ∀ input place rest, varint input = .ok place rest →
          zigzag input = .ok ((place >>> 1).toInt64 ^^^ -(place &&& 1).toInt64) rest := by
  refine ⟨readsShortest_varint, readsShortest_zigzag, fun value => ?_,
    fun input place rest h => ?_⟩
  · rw [zigzagBytes, zigzag_eq_xor]
  · rw [← unzigzag_eq_xor]
    exact bind_of_ok h

end Reader

end AvroResolution
