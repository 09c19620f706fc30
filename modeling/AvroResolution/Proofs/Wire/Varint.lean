import AvroResolution.Proofs.Wire.Scalar
import Mathlib.Data.Nat.Digits.Lemmas

/-!
# The numbers that varints spell

The groups of a varint spell a number that has no bound, and a reader has 64 bits for it.

* `Groups.Complete` says that bytes are the groups of one number, `Groups.number` is the
  number that they spell.
* `Groups.Complete.varint_run` and `Reader.exists_complete` say what is read: a number of at
  most ten groups, of which the lowest 64 bits count.
* `Groups.Complete.lt_iff_fit`: nine groups hold 63 bits, so of the tenth one bit counts.
* `Reader.GoesBy` speaks of the readers that begin with a signed integer.
* `Reader.varint_exact_iff` is the result: a reader goes by the number that was spelled
  exactly if the tenth group, should there be one, has no other bit.
-/

namespace AvroResolution

namespace Groups

/-! ## Numbers in groups of seven bits -/

/-- The number that groups spell, the lowest one first, however many they are. -/
def number (bytes : List UInt8) : Nat :=
  Nat.ofDigits 128 (bytes.map fun byte => byte.toNat % 128)

theorem number_cons (byte : UInt8) (rest : List UInt8) :
    number (byte :: rest) = byte.toNat % 128 + 128 * number rest :=
  Nat.ofDigits_cons ..

theorem number_append (front back : List UInt8) :
    number (front ++ back) = number front + 128 ^ front.length * number back := by
  rw [number, List.map_append, Nat.ofDigits_append, List.length_map]
  rfl

theorem number_lt (bytes : List UInt8) : number bytes < 128 ^ bytes.length := by
  have hdigits : ∀ digit ∈ bytes.map (fun byte => byte.toNat % 128), digit < 128 := by
    intro digit hdigit
    obtain ⟨byte, _, rfl⟩ := List.mem_map.1 hdigit
    exact Nat.mod_lt _ (by decide)
  have hlt := Nat.ofDigits_lt_base_pow_length (by decide) hdigits
  rwa [List.length_map] at hlt

/-- The bytes are the groups of one number: each but the last one says that another group
follows. -/
inductive Complete : List UInt8 → Prop
  | last {byte : UInt8} (hbyte : byte < 128) : Complete [byte]
  | more {byte : UInt8} {rest : List UInt8} (hbyte : ¬byte < 128) (hrest : Complete rest) :
      Complete (byte :: rest)

theorem Complete.exists_last {bytes : List UInt8} (h : Complete bytes) :
    ∃ front last, bytes = front ++ [last] ∧ last < 128 := by
  induction h with
  | @last byte hbyte => exact ⟨[], byte, rfl, hbyte⟩
  | @more byte rest _ _ ih =>
    obtain ⟨front, last, rfl, hlast⟩ := ih
    exact ⟨byte :: front, last, rfl, hlast⟩

/-- Of the tenth group no bit is beyond the 64 bits of an integer. -/
def Fit (bytes : List UInt8) : Prop :=
  ∀ byte, bytes[9]? = some byte → byte < 2

/-- Nine groups hold 63 bits, so the number of ten groups has 64 if the tenth group has one. -/
theorem Complete.lt_iff_fit {bytes : List UInt8} (h : Complete bytes) (hle : bytes.length ≤ 10) :
    number bytes < 2 ^ 64 ↔ Fit bytes := by
  obtain ⟨front, last, rfl, hlast⟩ := h.exists_last
  have hfront := number_lt front
  rw [List.length_append, List.length_singleton] at hle
  rw [number_append, number_cons, show number [] = 0 from rfl, Fit]
  rw [UInt8.lt_iff_toNat_lt] at hlast
  rcases Nat.lt_or_eq_of_le (Nat.le_of_succ_le_succ hle) with hshort | hten
  · have hpow : 128 ^ front.length ≤ 128 ^ 8 := Nat.pow_le_pow_right (by decide) (by omega)
    have hproduct : 128 ^ front.length * (last.toNat % 128 + 128 * 0) ≤ 128 ^ 8 * 127 :=
      Nat.mul_le_mul hpow (by omega)
    have hnone : (front ++ [last])[9]? = none :=
      List.getElem?_eq_none (by rw [List.length_append, List.length_singleton]; omega)
    simp only [hnone, reduceCtorEq, false_implies, implies_true, iff_true]
    omega
  · have htenth : (front ++ [last])[9]? = some last := by
      rw [← hten, List.getElem?_append_right (Nat.le_refl _), Nat.sub_self]
      rfl
    rw [hten] at hfront ⊢
    simp only [htenth, Option.some.injEq, forall_eq', UInt8.lt_iff_toNat_lt]
    have htwo : (2 : UInt8).toNat = 2 := rfl
    have h128 : (128 : UInt8).toNat = 128 := rfl
    omega

/-! ## Reading groups -/

/-- As many groups as a number has are read as the number, and fewer are refused.  The induction
is on the groups. -/
theorem Complete.varintGroups_run {bytes : List UInt8} (h : Complete bytes) (groups : Nat)
    (tail : List UInt8) :
    Reader.varintGroups groups (.ofList (bytes ++ tail)) =
      if bytes.length ≤ groups then .ok (number bytes) (.ofList tail)
      else .error .overlongVarint (.ofList ((bytes ++ tail).drop groups)) := by
  induction h generalizing groups with
  | @last byte hbyte =>
    cases groups with
    | zero => rfl
    | succ groups =>
      have hsmall : byte.toNat < 128 := UInt8.lt_iff_toNat_lt.1 hbyte
      have hnumber : number [byte] = byte.toNat := by
        rw [number_cons, Nat.mod_eq_of_lt hsmall]
        rfl
      rw [Reader.varintGroups, List.singleton_append, Reader.bind_of_ok (Reader.byte_cons _ _),
        if_pos hbyte, if_pos (by simp), hnumber]
      rfl
  | @more byte rest hbyte _ ih =>
    cases groups with
    | zero => rfl
    | succ groups =>
      have hlarge : 128 ≤ byte.toNat := Nat.not_lt.1 fun h => hbyte (UInt8.lt_iff_toNat_lt.2 h)
      have hnumber : number (byte :: rest) = byte.toNat - 128 + 128 * number rest := by
        have hlt := byte.toNat_lt
        rw [number_cons]
        omega
      rw [Reader.varintGroups, List.cons_append, Reader.bind_of_ok (Reader.byte_cons _ _),
        if_neg hbyte, List.length_cons]
      by_cases hle : rest.length ≤ groups
      · have hrest := ih groups
        rw [if_pos hle] at hrest
        rw [if_pos (Nat.succ_le_succ hle), Reader.bind_of_ok hrest, hnumber]
        rfl
      · have hrest := ih groups
        rw [if_neg hle] at hrest
        rw [if_neg (by omega), Reader.bind_of_error hrest, List.drop_succ_cons]

/-- The number of at most ten groups is read, less the bits beyond the lowest 64.  More groups
are refused after the tenth. -/
theorem Complete.varint_run {bytes : List UInt8} (h : Complete bytes) (tail : List UInt8) :
    Reader.varint (.ofList (bytes ++ tail)) =
      if bytes.length ≤ 10 then .ok (UInt64.ofNat (number bytes)) (.ofList tail)
      else .error .overlongVarint (.ofList ((bytes ++ tail).drop 10)) := by
  have hgroups := h.varintGroups_run 10 tail
  by_cases hle : bytes.length ≤ 10
  · rw [if_pos hle] at hgroups ⊢
    exact Reader.bind_of_ok hgroups
  · rw [if_neg hle] at hgroups ⊢
    exact Reader.bind_of_error hgroups

end Groups

namespace Reader

open Groups

/-- What is read as a number are its groups. -/
theorem exists_complete_of_varintGroups {groups number : Nat} {input rest : Input}
    (h : varintGroups groups input = .ok number rest) :
    ∃ taken, input.bytes = taken ++ rest.bytes ∧ Complete taken ∧ taken.length ≤ groups := by
  induction groups generalizing number input with
  | zero => cases h
  | succ groups ih =>
    obtain ⟨byte, middle, hfirst, h⟩ := exists_of_bind h
    have hbytes := bytes_of_byte hfirst
    split at h
    · rename_i hbyte
      injection h with _ hrest
      subst hrest
      exact ⟨[byte], hbytes, .last hbyte, by simp⟩
    · rename_i hbyte
      obtain ⟨found, left, hgroups, h⟩ := exists_of_bind h
      injection h with _ hrest
      subst hrest
      obtain ⟨taken, htaken, hcomplete, hlength⟩ := ih hgroups
      refine ⟨byte :: taken, ?_, .more hbyte hcomplete, Nat.succ_le_succ hlength⟩
      rw [hbytes, htaken, List.cons_append]

/-- What is read as an unsigned integer are at most ten groups, whose lowest 64 bits count. -/
theorem exists_complete {value : UInt64} {input rest : Input}
    (h : varint input = .ok value rest) :
    ∃ taken, input.bytes = taken ++ rest.bytes ∧ Complete taken ∧ taken.length ≤ 10 ∧
      value.toNat = number taken % 2 ^ 64 := by
  obtain ⟨found, left, hgroups, _⟩ := exists_of_bind h
  obtain ⟨taken, htaken, hcomplete, hlength⟩ := exists_complete_of_varintGroups hgroups
  have hinput : input = .ofList (taken ++ left.bytes) := Input.ext htaken
  have hrun := hcomplete.varint_run left.bytes
  rw [if_pos hlength, ← hinput, h] at hrun
  injection hrun with hvalue hrest
  subst hvalue hrest
  exact ⟨taken, htaken, hcomplete, hlength, UInt64.toNat_ofNat'⟩

end Reader

/-! ## Signed integers -/

/-- The signed integer at a place of the order 0, -1, 1, -2, 2, …, however far it is. -/
def unfolded (place : Nat) : Int :=
  if place % 2 = 0 then (place / 2 : Nat) else -(place / 2 : Nat) - 1

theorem toInt_unzigzag (place : UInt64) : (unzigzag place).toInt = unfolded place.toNat := by
  have hlt := place.toNat_lt
  rw [unzigzag, unfolded]
  split
  · rw [Int.ofNat_eq_natCast, Int64.toInt_ofInt_of_le] <;> omega
  · rw [Int.negSucc_eq, Int64.toInt_ofInt_of_le] <;> omega

/-- Without the bits beyond the lowest 64 a number is at a place for another integer, of another
absolute value. -/
theorem natAbs_unfolded_mod {place : Nat} (h : 2 ^ 64 ≤ place) :
    (unfolded (place % 2 ^ 64)).natAbs ≠ (unfolded place).natAbs := by
  rw [unfolded, unfolded]
  split <;> split <;> omega

namespace Reader

open Groups

variable {input : Input}

theorem exists_complete_of_long {value : Int64} {rest : Input}
    (h : long input = .ok value rest) :
    ∃ taken, input.bytes = taken ++ rest.bytes ∧ Complete taken ∧ taken.length ≤ 10 ∧
      value.toInt = unfolded (number taken % 2 ^ 64) := by
  obtain ⟨place, left, hplace, h⟩ := exists_of_bind h
  injection h with hvalue hrest
  subst hvalue hrest
  obtain ⟨taken, htaken, hcomplete, hlength, hnumber⟩ := exists_complete hplace
  exact ⟨taken, htaken, hcomplete, hlength, by rw [toInt_unzigzag, hnumber]⟩

/-- The reader begins with an integer, and what it gives agrees with the integer that the first
bytes of the input spell exactly if they fit. -/
def GoesBy {α : Type} (x : Reader α) (input : Input) (agrees : α → Int → Prop) : Prop :=
  ∀ value rest, x input = .ok value rest →
    ∃ taken behind, input.bytes = taken ++ behind ∧ Complete taken ∧ taken.length ≤ 10 ∧
      (agrees value (unfolded (number taken)) ↔ Fit taken)

/-- What follows the integer gives what agrees with the integer, and with no integer of another
absolute value. -/
theorem goesBy_of_long {α : Type} {f : Int64 → Reader α} {agrees : α → Int → Prop}
    (hf : ∀ integer middle value rest, f integer middle = .ok value rest →
      agrees value integer.toInt ∧
        ∀ other, agrees value other → integer.toInt.natAbs = other.natAbs) :
    GoesBy (long >>= f) input agrees := by
  intro value rest h
  obtain ⟨integer, left, hlong, h⟩ := exists_of_bind h
  obtain ⟨taken, htaken, hcomplete, hlength, hinteger⟩ := exists_complete_of_long hlong
  obtain ⟨hagrees, honly⟩ := hf integer left value rest h
  refine ⟨taken, left.bytes, htaken, hcomplete, hlength, ?_⟩
  rw [← hcomplete.lt_iff_fit hlength]
  rw [hinteger] at hagrees honly
  constructor
  · intro hvalue
    exact Nat.lt_of_not_le fun hlarge => natAbs_unfolded_mod hlarge (honly _ hvalue)
  · intro hsmall
    rwa [Nat.mod_eq_of_lt hsmall] at hagrees

theorem goesBy_long : GoesBy long input fun value integer => value.toInt = integer := by
  have hlong : GoesBy (long >>= pure) input fun value integer => value.toInt = integer := by
    refine goesBy_of_long fun integer middle value rest h => ?_
    cases h
    exact ⟨rfl, fun other hother => by rw [hother]⟩
  rwa [bind_pure] at hlong

theorem goesBy_int : GoesBy int input fun value integer => value.toInt = integer := by
  refine goesBy_of_long fun integer middle value rest h => ?_
  split at h
  · rename_i hrange
    injection h with hvalue
    subst hvalue
    have hsame : (Int32.ofInt integer.toInt).toInt = integer.toInt := by
      rw [Int32.toInt_ofInt_of_le] <;> omega
    exact ⟨hsame, fun other hother => by rw [← hother, hsame]⟩
  · cases h

theorem goesBy_bytes :
    GoesBy bytes input fun content integer => (content.length : Int) = integer := by
  refine goesBy_of_long fun integer middle content rest h => ?_
  split at h
  · cases h
  · rename_i hnegative
    have hnonneg : 0 ≤ integer.toInt := by
      rw [Int64.lt_iff_toInt_lt] at hnegative
      exact Int.not_lt.1 hnegative
    rw [take] at h
    split at h
    · rename_i hlength
      injection h with hcontent
      have hsame : (content.length : Int) = integer.toInt := by
        rw [← hcontent, List.length_take, ← middle.length_eq, Nat.min_eq_left hlength,
          Int.toNat_of_nonneg hnonneg]
      exact ⟨hsame, fun other hother => by rw [← hother, hsame]⟩
    · cases h

theorem goesBy_blockCount :
    GoesBy blockCount input fun count integer => count = integer.natAbs := by
  refine goesBy_of_long fun integer middle count rest h => ?_
  have hcount : count = integer.toInt.natAbs := by
    split at h
    · obtain ⟨_, _, _, h⟩ := exists_of_bind h
      injection h with hcount
      exact hcount.symm
    · injection h with hcount
      exact hcount.symm
  exact ⟨hcount, fun other hother => hcount.symm.trans hother⟩

theorem goesBy_branchIndex (count : Nat) :
    GoesBy (branchIndex count) input fun index integer => (index.val : Int) = integer := by
  refine goesBy_of_long fun integer middle index rest h => ?_
  split at h
  · rename_i hrange
    injection h with hindex
    have hnonneg : 0 ≤ integer.toInt := Int64.le_iff_toInt_le.1 hrange.1
    have hsame : (index.val : Int) = integer.toInt := by
      rw [← hindex]
      exact Int.toNat_of_nonneg hnonneg
    exact ⟨hsame, fun other hother => by rw [← hother, hsame]⟩
  · cases h

/-- An unsigned integer is read from the groups of one number.  At most ten groups are read, and
all bits beyond the lowest 64 are dropped, so the integer is the number that was spelled exactly
if the tenth group, should there be one, is 0 or 1; more groups are refused.  The readers that
begin with a signed integer go by the number under the same condition: integers, the lengths of
bytes, the counts of blocks and the indices of branches. -/
theorem varint_exact_iff (input : Input) :
    (∀ value rest, varint input = .ok value rest →
      ∃ taken, input.bytes = taken ++ rest.bytes ∧ Complete taken ∧
        value.toNat = number taken % 2 ^ 64 ∧ (value.toNat = number taken ↔ Fit taken)) ∧
    (∀ bytes behind, input.bytes = bytes ++ behind → Complete bytes → varint input =
      if bytes.length ≤ 10 then .ok (UInt64.ofNat (number bytes)) (.ofList behind)
      else .error .overlongVarint (input.drop 10)) ∧
    GoesBy long input (fun value integer => value.toInt = integer) ∧
    GoesBy int input (fun value integer => value.toInt = integer) ∧
    GoesBy bytes input (fun content integer => (content.length : Int) = integer) ∧
    GoesBy blockCount input (fun count integer => count = integer.natAbs) ∧
    ∀ count, GoesBy (branchIndex count) input fun index integer =>
      (index.val : Int) = integer := by
  refine ⟨fun value rest h => ?_, fun bytes behind hinput h => ?_, goesBy_long, goesBy_int,
    goesBy_bytes, goesBy_blockCount, goesBy_branchIndex⟩
  · obtain ⟨taken, htaken, hcomplete, hlength, hvalue⟩ := exists_complete h
    refine ⟨taken, htaken, hcomplete, hvalue, ?_⟩
    rw [← hcomplete.lt_iff_fit hlength, hvalue]
    constructor
    · intro hsame
      rw [← hsame]
      exact Nat.mod_lt _ (by decide)
    · exact Nat.mod_eq_of_lt
  · obtain rfl : input = .ofList (bytes ++ behind) := Input.ext hinput
    have hdrop : Input.drop (.ofList (bytes ++ behind)) 10 = .ofList ((bytes ++ behind).drop 10) :=
      Input.ext rfl
    rw [hdrop]
    exact h.varint_run behind

/-- Ten groups that spell 2 to the power of 64 are read as 0. -/
theorem varint_ne_number :
    Complete (List.replicate 9 128 ++ [2]) ∧ number (List.replicate 9 128 ++ [2]) = 2 ^ 64 ∧
      varint (.ofList (List.replicate 9 128 ++ [2])) = .ok 0 (.ofList []) := by
  have hcomplete : Complete (List.replicate 9 128 ++ [2]) := by
    simp only [List.replicate, List.cons_append, List.nil_append]
    repeat' first
      | exact .last (by decide)
      | refine .more (by decide) ?_
  have hnumber : number (List.replicate 9 128 ++ [2]) = 2 ^ 64 := by decide
  have hrun := hcomplete.varint_run []
  rw [List.append_nil, hnumber] at hrun
  exact ⟨hcomplete, hnumber, hrun⟩

end Reader

end AvroResolution
