import AvroResolution.Proofs.Wire.Reader
import AvroResolution.Wire.Write
import Mathlib.Algebra.Group.Nat.Defs

/-!
# Laws of scalars

What the scalar readers have in common: they only drop bytes, they fail only for the
data, and they never give up.

* `DecodeFault.ofWire` are the faults of bytes that are no encoding at all,
  `DecodeFault.ofData` those that some data can cause under any program.
* `Reader.Scalar` says that a reader only drops bytes, fails only for the data and
  never gives up.
* `Reader.long_run`, `Reader.bytes_run` and their like read back what a step
  writes, and leave the bytes behind it.
-/

namespace AvroResolution

/-! ## Faults of the data -/

/-- Bytes that end too soon or that are no integer or no text. -/
def DecodeFault.ofWire : DecodeFault → Prop
  | .endOfInput => True
  | .overlongVarint => True
  | .notText _ => True
  | _ => False

/-- A fault that does not speak of the program. -/
def DecodeFault.ofData : DecodeFault → Prop
  | .program _ => False
  | .unpromotable _ _ => False
  | .mismatch _ => False
  | _ => True

namespace Reader

/-- The reader only drops bytes, fails only for the data and never gives up. -/
structure Scalar {α : Type} (x : Reader α) : Prop where
  drops : Drops x
  faults : Ensures (fun _ => True) DecodeFault.ofData x
  ends : Ensures (fun _ => True) (· ≠ .endless) x

namespace Scalar

variable {α β : Type}

protected theorem pure (value : α) : Scalar (pure value) :=
  ⟨.pure value, .pure trivial, .pure trivial⟩

protected theorem throw {fault : DecodeFault} (h : fault.ofData) (hends : fault ≠ .endless) :
    Scalar (throw fault : Reader α) :=
  ⟨.throw fault, .throw h, .throw hends⟩

protected theorem bind {x : Reader α} {f : α → Reader β} (hx : Scalar x)
    (hf : ∀ value, Scalar (f value)) : Scalar (x >>= f) :=
  ⟨.bind hx.drops fun value => (hf value).drops,
    .bind hx.faults fun value _ => (hf value).faults,
    .bind hx.ends fun value _ => (hf value).ends⟩

theorem intro {x : Reader α}
    (hok : ∀ input value rest, x input = .ok value rest → ∃ count, rest = input.drop count)
    (herror : ∀ input fault rest, x input = .error fault rest →
      fault.ofData ∧ fault ≠ .endless) : Scalar x :=
  ⟨.intro hok, .intro (fun _ _ _ _ => trivial) fun _ _ _ h => (herror _ _ _ h).1,
    .intro (fun _ _ _ _ => trivial) fun _ _ _ h => (herror _ _ _ h).2⟩

end Scalar

theorem scalar_remaining : Scalar remaining := by
  refine .intro ?_ ?_
  · intro input value rest h
    cases h
    exact ⟨0, Input.ext rfl⟩
  · intro input fault rest h
    cases h

theorem scalar_byte : Scalar byte := by
  refine .intro ?_ ?_
  · intro input value rest h
    simp only [byte] at h
    split at h
    · cases h
    · cases h
      exact ⟨1, rfl⟩
  · intro input fault rest h
    simp only [byte] at h
    split at h
    · cases h
      exact ⟨trivial, nofun⟩
    · cases h

theorem scalar_take (count : Nat) : Scalar (take count) := by
  refine .intro ?_ ?_
  · intro input value rest h
    simp only [take] at h
    split at h
    · cases h
      exact ⟨count, rfl⟩
    · cases h
  · intro input fault rest h
    simp only [take] at h
    split at h
    · cases h
    · cases h
      exact ⟨trivial, nofun⟩

theorem scalar_varintGroups (groups : Nat) : Scalar (varintGroups groups) := by
  induction groups with
  | zero => exact .throw trivial nofun
  | succ groups ih =>
    refine .bind scalar_byte fun byte => ?_
    split
    · exact .pure _
    · exact .bind ih fun rest => .pure _

theorem scalar_long : Scalar long :=
  .bind (.bind (scalar_varintGroups 10) fun _ => .pure _) fun _ => .pure _

theorem scalar_boolean : Scalar boolean := by
  refine .bind scalar_byte fun byte => ?_
  split
  · exact .pure _
  · split
    · exact .pure _
    · exact .throw trivial nofun

theorem scalar_int : Scalar int := by
  refine .bind scalar_long fun value => ?_
  split
  · exact .pure _
  · exact .throw trivial nofun

theorem scalar_float : Scalar float :=
  .bind (scalar_take 4) fun _ => .pure _

theorem scalar_double : Scalar double :=
  .bind (scalar_take 8) fun _ => .pure _

theorem scalar_bytes : Scalar bytes := by
  refine .bind scalar_long fun length => ?_
  split
  · exact .throw trivial nofun
  · exact scalar_take _

theorem scalar_string : Scalar string := by
  refine .bind scalar_bytes fun content => ?_
  cases decodeUtf8 content with
  | ok text => exact .pure text
  | error fault => exact .throw trivial nofun

theorem scalar_branchIndex (count : Nat) : Scalar (branchIndex count) := by
  refine .bind scalar_long fun index => ?_
  split
  · exact .pure _
  · exact .throw trivial nofun

theorem scalar_blockCount : Scalar blockCount := by
  refine .bind scalar_long fun count => ?_
  split
  · exact .bind scalar_long fun _ => .pure _
  · exact .pure _

/-! ## Reading back what was written -/

@[simp] theorem byte_cons (byte : UInt8) (tail : List UInt8) :
    Reader.byte (.ofList (byte :: tail)) = .ok byte (.ofList tail) := by
  simp only [Reader.byte, Input.bytes_ofList]
  congr 1

theorem bytes_of_byte {first : UInt8} {input rest : Input} (h : byte input = .ok first rest) :
    input.bytes = first :: rest.bytes := by
  rw [byte] at h
  split at h
  · cases h
  · rename_i hbytes
    injection h with hfirst hrest
    rw [← hfirst, ← hrest, Input.bytes_drop, hbytes]
    rfl

theorem take_append (content tail : List UInt8) :
    take content.length (.ofList (content ++ tail)) = .ok content (.ofList tail) := by
  have hle : content.length ≤ (Input.ofList (content ++ tail)).length := by
    simp [Input.ofList]
  have hdrop : (Input.ofList (content ++ tail)).drop content.length = .ofList tail :=
    Input.ext (by simp)
  rw [take, if_pos hle, hdrop]
  simp

/-- The groups of a number are read back as the number.  The induction is on the
number of groups that may follow. -/
theorem varintGroups_run (more n : Nat) (hn : n < 128 ^ (more + 1)) (tail : List UInt8) :
    varintGroups (more + 1) (.ofList (AvroResolution.varintGroups more n ++ tail)) =
      .ok n (.ofList tail) := by
  induction more generalizing n with
  | zero =>
    have hbyte : UInt8.ofNat n < 128 := by
      rw [UInt8.lt_iff_toNat_lt, UInt8.toNat_ofNat']
      simp
      omega
    rw [varintGroups, AvroResolution.varintGroups, List.singleton_append,
      bind_of_ok (byte_cons _ _), if_pos hbyte, pure_run, UInt8.toNat_ofNat']
    congr 1
    omega
  | succ more ih =>
    rw [varintGroups, AvroResolution.varintGroups]
    split
    · have hbyte : UInt8.ofNat n < 128 := by
        rw [UInt8.lt_iff_toNat_lt, UInt8.toNat_ofNat']
        simp
        omega
      rw [List.singleton_append, bind_of_ok (byte_cons _ _), if_pos hbyte, pure_run,
        UInt8.toNat_ofNat']
      congr 1
      omega
    · have hbyte : ¬UInt8.ofNat (n % 128 + 128) < 128 := by
        rw [UInt8.lt_iff_toNat_lt, UInt8.toNat_ofNat']
        simp
        omega
      have hrest : n / 128 < 128 ^ (more + 1) := by
        rw [Nat.pow_succ] at hn
        omega
      rw [List.cons_append, bind_of_ok (byte_cons _ _), if_neg hbyte, bind_of_ok (ih _ hrest),
        pure_run, UInt8.toNat_ofNat']
      congr 1
      omega

theorem varint_run (value : UInt64) (tail : List UInt8) :
    varint (.ofList (varintBytes value ++ tail)) = .ok value (.ofList tail) := by
  have hvalue : value.toNat < 128 ^ (9 + 1) := by
    have := value.toNat_lt
    omega
  rw [varint, varintBytes, bind_of_ok (varintGroups_run 9 _ hvalue tail), pure_run]
  simp

end Reader

theorem unzigzag_zigzag (value : Int64) : unzigzag (zigzag value) = value := by
  have hlower := value.le_toInt
  have hupper := value.toInt_lt
  cases hvalue : value.toInt with
  | ofNat n =>
    have hn : 2 * n < 2 ^ 64 := by
      rw [hvalue] at hupper
      simp at hupper
      omega
    have hplace : (zigzag value).toNat = 2 * n := by
      rw [zigzag, hvalue]
      simp only [UInt64.toNat_ofNat']
      exact Nat.mod_eq_of_lt hn
    rw [unzigzag, hplace, if_pos (by omega), Nat.mul_div_cancel_left n (by omega), ← hvalue,
      Int64.ofInt_toInt]
  | negSucc n =>
    have hn : 2 * n + 1 < 2 ^ 64 := by
      rw [hvalue] at hlower
      omega
    have hplace : (zigzag value).toNat = 2 * n + 1 := by
      rw [zigzag, hvalue]
      simp only [UInt64.toNat_ofNat']
      exact Nat.mod_eq_of_lt hn
    rw [unzigzag, hplace, if_neg (by omega), show (2 * n + 1) / 2 = n by omega, ← hvalue,
      Int64.ofInt_toInt]

namespace Reader

theorem long_run (value : Int64) (tail : List UInt8) :
    long (.ofList (zigzagBytes value ++ tail)) = .ok value (.ofList tail) := by
  rw [long, zigzag, zigzagBytes, bind_of_ok (varint_run _ tail), pure_run, unzigzag_zigzag]

theorem bytes_run {content : List UInt8} (h : content.length < 2 ^ 63) (tail : List UInt8) :
    bytes (.ofList (Step.lengthPrefixed content ++ tail)) = .ok content (.ofList tail) := by
  have hlength := Int64.toInt_ofNat_of_lt h
  have hnonneg : ¬Int64.ofNat content.length < 0 := by
    rw [Int64.lt_iff_toInt_lt, hlength]
    simp
  rw [bytes, Step.lengthPrefixed, List.append_assoc, bind_of_ok (long_run _ _), if_neg hnonneg,
    hlength]
  exact take_append content tail

end Reader

theorem decodeUtf8_encodeUtf8 (text : String) : decodeUtf8 (encodeUtf8 text) = .ok text := by
  have hvalid : text.toUTF8.IsValidUTF8 := text.isValidUTF8
  have hbytes : (⟨(encodeUtf8 text).toArray⟩ : ByteArray) = text.toUTF8 := by
    rw [encodeUtf8, Array.toArray_toList]
  rw [decodeUtf8, hbytes, String.fromUTF8?, dif_pos hvalid]
  rfl

end AvroResolution
