import AvroResolution.Proofs.Decoding.Plain
import AvroResolution.Proofs.Default.Encoding

/-!
# Reading encoded defaults back

Reading the encoding of a default as data of its own type uses up all of its bytes,
so a default never leaves bytes over.

* `Reader.TakesUnless` says that a reader takes given bytes off the front of every input,
  unless it fails with a fault that refuses them.  It may always refuse the datum they
  stand for (`DecodeFault.refusesDatum`), as it does with an array of too many items without
  bytes.  `Reader.Takes` is the case in which it never finds the bytes malformed.
* `Registry.takes_of_encodes` says so of a datum and of the reader of its node.
-/

namespace AvroResolution

/-- A datum that is refused although its bytes are well formed. -/
def DecodeFault.refusesDatum : DecodeFault → Prop
  | .data _ => True
  | .unmappedOrdinal _ => True
  | _ => False

theorem DecodeFault.refusesDatum.not_ofWire {fault : DecodeFault} (h : fault.refusesDatum) :
    ¬fault.ofWire := by
  cases fault <;> first | exact id | cases h

theorem DecodeFault.refusesDatum.ne_endless {fault : DecodeFault} (h : fault.refusesDatum) :
    fault ≠ .endless := by
  rintro rfl
  exact h

namespace Reader

/-- The reader takes the bytes off the front of an input, or fails with a fault that refuses
them. -/
def TakesUnless {α : Type} (refuses : DecodeFault → Prop) (x : Reader α) (bytes : List UInt8) :
    Prop :=
  ∀ tail,
    match x (.ofList (bytes ++ tail)) with
    | .ok _ rest => rest = .ofList tail
    | .error fault _ => refuses fault

/-- The reader takes the bytes off the front of an input, unless it refuses what they
stand for. -/
abbrev Takes {α : Type} (x : Reader α) (bytes : List UInt8) : Prop :=
  TakesUnless (fun fault => ¬fault.ofWire) x bytes

variable {refuses : DecodeFault → Prop}

namespace TakesUnless

variable {α β σ : Type} {x : Reader α} {f : α → Reader β} {first second bytes : List UInt8}

theorem of_run {value : α}
    (h : ∀ tail, x (.ofList (bytes ++ tail)) = .ok value (.ofList tail)) :
    TakesUnless refuses x bytes := by
  intro tail
  rw [h tail]

protected theorem pure (value : α) : TakesUnless refuses (pure value) [] :=
  fun _ => rfl

protected theorem throw {fault : DecodeFault} (h : refuses fault) :
    TakesUnless refuses (throw fault : Reader α) bytes :=
  fun _ => h

protected theorem bind (hx : TakesUnless refuses x first)
    (hf : ∀ value, TakesUnless refuses (f value) second) :
    TakesUnless refuses (x >>= f) (first ++ second) := by
  intro tail
  have hrun := hx (second ++ tail)
  rw [List.append_assoc, bind_run]
  cases hfirst : x (.ofList (first ++ (second ++ tail))) with
  | ok value rest =>
    rw [hfirst] at hrun
    rw [show rest = .ofList (second ++ tail) from hrun]
    exact hf value tail
  | error fault rest =>
    rw [hfirst] at hrun
    exact hrun

/-- What follows a value that is read back exactly may depend on it. -/
theorem bind_of_run {value : α}
    (hx : ∀ tail, x (.ofList (first ++ tail)) = .ok value (.ofList tail))
    (hf : TakesUnless refuses (f value) second) :
    TakesUnless refuses (x >>= f) (first ++ second) := by
  intro tail
  rw [List.append_assoc, bind_of_ok (hx _)]
  exact hf tail

theorem bind_pure (hx : TakesUnless refuses x bytes)
    (hf : ∀ value, TakesUnless refuses (f value) []) : TakesUnless refuses (x >>= f) bytes := by
  have h := TakesUnless.bind hx hf
  rwa [List.append_nil] at h

theorem remaining_bind {f : Nat → Reader β}
    (hf : ∀ count, TakesUnless refuses (f count) bytes) :
    TakesUnless refuses (Reader.remaining >>= f) bytes :=
  fun tail => hf _ tail

/-! ## Blocks -/

protected theorem iterate {step : σ → Reader σ} :
    ∀ {parts : List (List UInt8)},
      (∀ part ∈ parts, ∀ state, TakesUnless refuses (step state) part) →
        ∀ state, TakesUnless refuses (Reader.iterate step parts.length state) parts.flatten
  | [], _, state => .pure state
  | part :: _, hstep, state =>
    .bind (hstep part (.head _) state) fun next =>
      TakesUnless.iterate (fun part h => hstep part (.tail _ h)) next

end TakesUnless

theorem blockCount_run {count : Nat} (h : count < maxLength) (tail : List UInt8) :
    blockCount (.ofList ((Step.count count).encode ++ tail)) = .ok count (.ofList tail) := by
  have hcount := Int64.toInt_ofNat_of_lt h
  have hnonneg : ¬Int64.ofNat count < 0 := by
    rw [Int64.lt_iff_toInt_lt, hcount]
    simp
  rw [blockCount, Step.encode, bind_of_ok (long_run _ tail), if_neg hnonneg, hcount]
  rfl

/-- The limit on the blocks is no obstacle to the one block of a datum, which has a byte at
least. -/
theorem blocks_encodeBlock {σ : Type} (step : σ → Reader σ) (state : σ) (count : Nat)
    (items tail : List UInt8) :
    ∃ limit, Reader.blocks step state (.ofList (encodeBlock count items ++ tail)) =
      Reader.blocksWithin step (limit + 2) state (.ofList (encodeBlock count items ++ tail)) := by
  have hlength : 1 ≤ (encodeBlock count items ++ tail).length := by
    have hlast : (Step.count 0).encode.length = 1 := rfl
    simp only [encodeBlock, List.length_append, hlast]
    omega
  have hremaining : Reader.remaining (.ofList (encodeBlock count items ++ tail)) =
      .ok (encodeBlock count items ++ tail).length
        (.ofList (encodeBlock count items ++ tail)) := rfl
  refine ⟨(encodeBlock count items ++ tail).length - 1, ?_⟩
  rw [Reader.blocks, bind_of_ok hremaining]
  congr 1
  omega

theorem TakesUnless.blocks {σ : Type} (step : σ → Reader σ) (parts : List (List UInt8))
    (hlength : parts.length < maxLength)
    (hstep : ∀ part ∈ parts, ∀ state, TakesUnless refuses (step state) part) (state : σ) :
    TakesUnless refuses (Reader.blocks step state) (encodeBlock parts.length parts.flatten) := by
  have hend (limit : Nat) (state : σ) : TakesUnless refuses
      (Reader.blocksWithin step (limit + 1) state) (Step.count 0).encode := by
    rw [← List.append_nil (Step.count 0).encode]
    exact .bind_of_run (blockCount_run (by decide)) (.pure state)
  have hwithin (limit : Nat) : TakesUnless refuses (Reader.blocksWithin step (limit + 2) state)
      (encodeBlock parts.length parts.flatten) := by
    by_cases hzero : parts.length = 0
    · rw [encodeBlock, if_pos hzero, List.nil_append]
      exact hend (limit + 1) state
    · rw [encodeBlock, if_neg hzero, List.append_assoc]
      refine .bind_of_run (blockCount_run hlength) ?_
      rw [if_neg hzero]
      exact .bind (.iterate hstep state) fun next => hend limit next
  intro tail
  obtain ⟨limit, hblocks⟩ := blocks_encodeBlock step state parts.length parts.flatten tail
  rw [hblocks]
  exact hwithin limit tail

section

variable (hdatum : ∀ fault, DecodeFault.refusesDatum fault → refuses fault)
include hdatum

theorem TakesUnless.readArray {item : Reader Value} {parts : List (List UInt8)}
    (hlength : parts.length < maxLength)
    (hitem : ∀ part ∈ parts, TakesUnless refuses item part) :
    TakesUnless refuses (Program.readArray item) (encodeBlock parts.length parts.flatten) := by
  refine .bind_pure (.blocks _ _ hlength ?_ _) fun _ => .pure _
  intro part hpart progress
  refine .remaining_bind fun before => .bind_pure (hitem part hpart) fun value =>
    .remaining_bind fun after => ?_
  generalize (if after = before then progress.zeroWidth + 1 else progress.zeroWidth) = zeroWidth
  dsimp only
  split
  · exact .throw (hdatum _ trivial)
  · exact .pure _

end

/-! ## Scalars -/

theorem string_run {text : String} (h : (encodeUtf8 text).length < maxLength) (tail : List UInt8) :
    string (.ofList ((Step.string text).encode ++ tail)) = .ok text (.ofList tail) := by
  rw [string, Step.encode, bind_of_ok (bytes_run h tail), decodeUtf8_encodeUtf8]
  rfl

theorem TakesUnless.readMap {value : Reader Value} {entries : List (String × List UInt8)}
    (hlength : entries.length < maxLength)
    (hkeys : ∀ entry ∈ entries, (encodeUtf8 entry.1).length < maxLength)
    (hvalues : ∀ entry ∈ entries, TakesUnless refuses value entry.2) :
    TakesUnless refuses (Program.readMap value) (encodeBlock entries.length
      (entries.flatMap fun entry => (Step.string entry.1).encode ++ entry.2)) := by
  refine .bind_pure ?_ fun _ => .pure _
  have h := @TakesUnless.blocks refuses _ (Program.readEntry value)
    (entries.map fun entry => (Step.string entry.1).encode ++ entry.2) (by simpa) ?_ []
  · rwa [List.length_map, ← List.flatMap_def] at h
  · intro part hpart read
    obtain ⟨entry, hentry, rfl⟩ := List.mem_map.1 hpart
    refine .bind_of_run (string_run (hkeys entry hentry)) ?_
    exact .bind_pure (hvalues entry hentry) fun _ => .pure _

theorem length_littleEndianBytes (width n : Nat) : (littleEndianBytes width n).length = width := by
  induction width generalizing n with
  | zero => rfl
  | succ width ih => rw [littleEndianBytes, List.length_cons, ih]

theorem takes_take {count : Nat} {content : List UInt8} (h : content.length = count) :
    TakesUnless refuses (take count) content := by
  subst h
  exact .of_run (take_append content)

theorem takes_long (value : Int64) : TakesUnless refuses long (zigzagBytes value) :=
  .of_run (long_run value)

section

variable (hdatum : ∀ fault, DecodeFault.refusesDatum fault → refuses fault)
include hdatum

theorem takes_int (value : Int64) : TakesUnless refuses int (zigzagBytes value) := by
  refine .bind_pure (takes_long value) fun value => ?_
  split
  · exact .pure _
  · exact .throw (hdatum _ trivial)

theorem takes_boolean (value : Bool) :
    TakesUnless refuses boolean (Step.boolean value).encode := by
  refine .bind_pure (.of_run (byte_cons _)) fun byte => ?_
  split
  · exact .pure _
  · split
    · exact .pure _
    · exact .throw (hdatum _ trivial)

theorem takes_readEnum (adjustment : EnumAdjustment) (ordinal : Nat) :
    TakesUnless refuses (Program.readEnum adjustment) (Step.ordinal ordinal).encode := by
  refine .bind_pure (takes_int hdatum _) fun ordinal => ?_
  split
  · exact .throw (hdatum _ trivial)
  · dsimp only
    split
    · exact .throw (hdatum _ trivial)
    · split
      · exact .throw (hdatum _ trivial)
      · exact .pure _

end

theorem branchIndex_run {count : Nat} (hcount : 0 < count) (tail : List UInt8) :
    branchIndex count (.ofList ((Step.index 0).encode ++ tail)) =
      .ok ⟨0, hcount⟩ (.ofList tail) := by
  rw [branchIndex, Step.encode, bind_of_ok (long_run _ tail), dif_pos ⟨by decide, hcount⟩]
  rfl

end Reader

/-! ## Data of a node -/

theorem length_resize (size : Nat) (content : List UInt8) :
    (resize size content).length = size := by
  simp only [resize, List.length_append, List.length_take, List.length_replicate]
  omega

theorem length_le_flatMap_utf8EncodeChar (characters : List Char) :
    characters.length ≤ (characters.flatMap String.utf8EncodeChar).length := by
  induction characters with
  | nil => exact Nat.le_refl _
  | cons character rest ih =>
    have := character.utf8Size_pos
    rw [List.flatMap_cons, List.length_append, String.length_utf8EncodeChar, List.length_cons]
    omega

/-- A text has no more characters than bytes. -/
theorem length_toList_le (text : String) : text.toList.length ≤ (encodeUtf8 text).length := by
  have hbytes : encodeUtf8 text = text.toList.flatMap String.utf8EncodeChar := by
    rw [encodeUtf8, String.toUTF8_eq_toByteArray, ← String.utf8Encode_toList, List.utf8Encode,
      List.data_toByteArray]
  rw [hbytes]
  exact length_le_flatMap_utf8EncodeChar text.toList

theorem length_le_of_latin1Bytes {kind : Kind} {text : String} {content : List UInt8}
    (h : latin1Bytes kind (.string text) = .ok content) :
    content.length ≤ (encodeUtf8 text).length := by
  rw [length_of_mapM h]
  exact length_toList_le text

namespace Registry

variable {registry : Registry} {refuses : DecodeFault → Prop}

/-- The encoding of a scalar is taken by its terminal. -/
theorem takes_of_encodePrimitive
    (hdatum : ∀ fault, DecodeFault.refusesDatum fault → refuses fault) {type : Primitive}
    {literal : Literal} {bytes : List UInt8} (haddressable : literal.addressable = true)
    (h : encodePrimitive type literal = .ok bytes) :
    Reader.TakesUnless refuses (Program.readTerminal (.primitive type)) bytes := by
  cases type with
  | null =>
    cases literal <;> cases h
    exact .pure _
  | boolean =>
    cases literal <;> cases h
    exact .bind_pure (Reader.takes_boolean hdatum _) fun _ => .pure _
  | int =>
    obtain ⟨n, _, h⟩ := bind_eq_ok.1 h
    cases h
    exact .bind_pure (Reader.takes_int hdatum _) fun _ => .pure _
  | long =>
    obtain ⟨n, _, h⟩ := bind_eq_ok.1 h
    cases h
    exact .bind_pure (Reader.takes_long _) fun _ => .pure _
  | float =>
    obtain ⟨x, _, h⟩ := bind_eq_ok.1 h
    cases h
    exact .bind_pure (.bind_pure (Reader.takes_take (Reader.length_littleEndianBytes 4 _))
      fun _ => .pure _) fun _ => .pure _
  | double =>
    obtain ⟨x, _, h⟩ := bind_eq_ok.1 h
    cases h
    exact .bind_pure (.bind_pure (Reader.takes_take (Reader.length_littleEndianBytes 8 _))
      fun _ => .pure _) fun _ => .pure _
  | bytes =>
    obtain ⟨content, hcontent, h⟩ := bind_eq_ok.1 h
    cases h
    cases literal with
    | string text =>
      have hlength : content.length < maxLength :=
        Nat.lt_of_le_of_lt (length_le_of_latin1Bytes hcontent) (of_decide_eq_true haddressable)
      exact .bind_pure (.of_run (Reader.bytes_run hlength)) fun _ => .pure _
    | _ => cases hcontent
  | string =>
    cases literal with
    | string text =>
      cases h
      exact .bind_pure (.of_run (Reader.string_run (of_decide_eq_true haddressable)))
        fun _ => .pure _
    | _ => cases h

theorem exists_of_encodeEnum {heading : Heading} {symbols : List String} {literal : Literal}
    {bytes : List UInt8} (h : encodeEnum heading symbols literal = .ok bytes) :
    ∃ ordinal, bytes = (Step.ordinal ordinal).encode := by
  cases literal with
  | string symbol =>
    rw [encodeEnum] at h
    split at h
    · cases h
      exact ⟨_, rfl⟩
    · cases h
  | _ => cases h

theorem takes_plainFields {read : Node → Reader Value} {fields : List (Field Node)}
    {parts : List (List UInt8)}
    (h : List.Forall₂ (fun (field : Field Node) part => Reader.Takes (read field.type) part)
      fields parts) : Reader.Takes (plainFields read fields) parts.flatten := by
  induction h with
  | nil => exact .pure _
  | cons hfield _ ih => exact .bind hfield fun _ => .bind_pure ih fun _ => .pure _

/-- A datum of a node is taken by the reader of the node.  The induction is on the
depth of the reader. -/
theorem takes_of_encodes (registry : Registry) (depth : Nat) {node : Node} {bytes : List UInt8}
    (h : registry.Encodes node bytes) : Reader.Takes (registry.plainWithin depth node) bytes := by
  have hdatum : ∀ fault, DecodeFault.refusesDatum fault → ¬fault.ofWire := fun _ h => h.not_ofWire
  induction depth generalizing node bytes with
  | zero => exact .throw id
  | succ depth ih =>
    rw [plainWithin]
    cases h with
    | primitive hshape haddressable hbytes =>
      rw [plainStep_primitive hshape]
      exact takes_of_encodePrimitive hdatum haddressable hbytes
    | enum hshape hbytes =>
      rw [plainStep_enum hshape]
      obtain ⟨ordinal, rfl⟩ := exists_of_encodeEnum hbytes
      exact Reader.takes_readEnum hdatum _ ordinal
    | fixed hshape hbytes =>
      rw [plainStep_fixed hshape]
      obtain ⟨content, _, hbytes⟩ := bind_eq_ok.1 hbytes
      cases hbytes
      exact .bind_pure (Reader.takes_take (length_resize _ _)) fun _ => .pure _
    | @record _ record parts hshape hlength hparts =>
      rw [plainStep_record hshape]
      refine .bind_pure (takes_plainFields (List.forall₂_iff_get.2 ⟨hlength.symm, ?_⟩))
        fun _ => .pure _
      intro index hindex hindex'
      exact ih (hparts index _ _ (List.getElem?_eq_getElem hindex)
        (List.getElem?_eq_getElem hindex'))
    | array hshape hlength hparts =>
      rw [plainStep_array hshape]
      exact .readArray hdatum hlength fun part hpart => ih (hparts part hpart)
    | map hshape hlength hkeys hvalues =>
      rw [plainStep_map hshape]
      exact .readMap hlength hkeys fun entry hentry => ih (hvalues entry hentry)
    | union hshape hbytes =>
      rw [plainStep_union hshape]
      refine .bind_of_run (Reader.branchIndex_run (Nat.succ_pos _)) ?_
      exact .bind_pure (ih hbytes) fun _ => .pure _

end Registry

end AvroResolution
