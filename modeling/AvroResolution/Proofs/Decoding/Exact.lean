import AvroResolution.Proofs.Default.Reading

/-!
# Reading back exactly

A reader reads bytes back exactly when it takes them off the front of every input and
gives the value that they stand for.  Unlike `Reader.Takes`, this leaves it no way to
refuse them.

* `Reader.Yields` is the property, with one lemma for each combinator.
* `Primitive.Represents` and `Registry.Represents` say which bytes stand for a value as
  data of a type, and of a node.  They are the format, written as rules.
* `Primitive.Represents.yields`, `Reader.yields_readArray` and their like read back what the
  rules allow.
-/

namespace AvroResolution

namespace Reader

/-- The reader takes the bytes off the front of every input, and gives the value. -/
def Yields {α : Type} (x : Reader α) (bytes : List UInt8) (value : α) : Prop :=
  ∀ tail, x (.ofList (bytes ++ tail)) = .ok value (.ofList tail)

namespace Yields

variable {α β σ : Type} {x : Reader α} {f : α → Reader β} {first second bytes : List UInt8}
  {value : α} {result : β}

protected theorem pure (value : α) : Yields (pure value) [] value :=
  fun _ => rfl

protected theorem bind (hx : Yields x first value) (hf : Yields (f value) second result) :
    Yields (x >>= f) (first ++ second) result := by
  intro tail
  rw [List.append_assoc, bind_of_ok (hx _)]
  exact hf tail

theorem bind_pure (hx : Yields x bytes value) (hf : Yields (f value) [] result) :
    Yields (x >>= f) bytes result := by
  have h := Yields.bind hx hf
  rwa [List.append_nil] at h

/-! ## Blocks -/

/-- The blocks of a collection that was written as one block. -/
protected theorem blocks {step : σ → Reader σ} {count : Nat} {items : List UInt8}
    {state last : σ} (hcount : count < maxLength)
    (hitems : Yields (Reader.iterate step count state) items last) :
    Yields (Reader.blocks step state) (encodeBlock count items) last := by
  have hend (limit : Nat) : Yields (Reader.blocksWithin step (limit + 1) last)
      (Step.count 0).encode last := by
    refine .bind_pure (blockCount_run (by decide)) ?_
    rw [if_pos rfl]
    exact .pure last
  intro tail
  obtain ⟨limit, hblocks⟩ := blocks_encodeBlock step state count items tail
  rw [hblocks]
  by_cases hzero : count = 0
  · subst hzero
    have hsame : state = last := by
      have hnone := hitems []
      rw [Reader.iterate, pure_run] at hnone
      injection hnone
    subst hsame
    rw [encodeBlock, if_pos rfl, List.nil_append]
    exact hend (limit + 1) tail
  · rw [encodeBlock, if_neg hzero, List.append_assoc, List.append_assoc,
      Reader.blocksWithin, bind_of_ok (blockCount_run hcount _), if_neg hzero,
      bind_of_ok (hitems _)]
    exact hend limit tail

end Yields

open Program

/-- An item counts as one without bytes if it has none. -/
theorem yields_readItem {item : Reader Value} {part : List UInt8} {value : Value}
    (hitem : Yields item part value) {progress : ArrayProgress}
    (hlimit : progress.zeroWidth + (if part.isEmpty then 1 else 0) ≤ zeroWidthLimit) :
    Yields (readItem item progress) part
      ⟨value :: progress.items, progress.zeroWidth + if part.isEmpty then 1 else 0⟩ := by
  intro tail
  have hbefore : remaining (.ofList (part ++ tail)) =
      .ok (part ++ tail).length (.ofList (part ++ tail)) := rfl
  have hafter : remaining (.ofList tail) = .ok tail.length (.ofList tail) := rfl
  have hwidth : (if tail.length = (part ++ tail).length then progress.zeroWidth + 1
      else progress.zeroWidth) = progress.zeroWidth + if part.isEmpty then 1 else 0 := by
    cases part with
    | nil => simp
    | cons byte rest =>
      have hlonger : tail.length ≠ rest.length + tail.length + 1 := by omega
      simp [hlonger]
  rw [readItem, bind_of_ok hbefore, bind_of_ok (hitem tail), bind_of_ok hafter,
    hwidth, if_neg (Nat.not_lt.2 hlimit)]
  rfl

theorem yields_items {item : Reader Value} {rows : List (Value × List UInt8)}
    (hitem : ∀ row ∈ rows, Yields item row.2 row.1) (progress : ArrayProgress)
    (hlimit : progress.zeroWidth + rows.countP (·.2.isEmpty) ≤ zeroWidthLimit) :
    Yields (Reader.iterate (readItem item) rows.length progress) (rows.flatMap (·.2))
      ⟨(rows.map (·.1)).reverse ++ progress.items,
        progress.zeroWidth + rows.countP (·.2.isEmpty)⟩ := by
  induction rows generalizing progress with
  | nil => exact .pure progress
  | cons row rest ih =>
    rw [List.countP_cons] at hlimit
    have hrest := ih (fun other hother => hitem other (.tail _ hother))
      ⟨row.1 :: progress.items, progress.zeroWidth + if row.2.isEmpty then 1 else 0⟩
      (by dsimp only; omega)
    have hfirst := yields_readItem (hitem row (.head _))
      (show progress.zeroWidth + (if row.2.isEmpty then 1 else 0) ≤ zeroWidthLimit by omega)
    have hboth := Yields.bind hfirst hrest
    rw [List.map_cons, List.reverse_cons, List.append_assoc, List.countP_cons,
      Nat.add_comm (rest.countP _), ← Nat.add_assoc]
    exact hboth

theorem yields_readArray {item : Reader Value} {rows : List (Value × List UInt8)}
    (hlength : rows.length < maxLength) (hlimit : rows.countP (·.2.isEmpty) ≤ zeroWidthLimit)
    (hitem : ∀ row ∈ rows, Yields item row.2 row.1) :
    Yields (readArray item) (encodeBlock rows.length (rows.flatMap (·.2)))
      (.array (rows.map (·.1))) := by
  refine .bind_pure (.blocks hlength (yields_items hitem ⟨[], 0⟩ (by dsimp only; omega))) ?_
  rw [List.append_nil, List.reverse_reverse]
  exact .pure _

theorem yields_entries {value : Reader Value} {rows : List (String × Value × List UInt8)}
    (hkeys : ∀ row ∈ rows, (encodeUtf8 row.1).length < maxLength)
    (hvalue : ∀ row ∈ rows, Yields value row.2.2 row.2.1) (entries : List (String × Value)) :
    Yields (Reader.iterate (readEntry value) rows.length entries)
      (rows.flatMap fun row => (Step.string row.1).encode ++ row.2.2)
      ((rows.map fun row => (row.1, row.2.1)).reverse ++ entries) := by
  induction rows generalizing entries with
  | nil => exact .pure entries
  | cons row rest ih =>
    have hrest := ih (fun other hother => hkeys other (.tail _ hother))
      (fun other hother => hvalue other (.tail _ hother)) ((row.1, row.2.1) :: entries)
    have hfirst : Yields (readEntry value entries) ((Step.string row.1).encode ++ row.2.2)
        ((row.1, row.2.1) :: entries) :=
      .bind (string_run (hkeys row (.head _))) (.bind_pure (hvalue row (.head _)) (.pure _))
    rw [List.map_cons, List.reverse_cons, List.append_assoc]
    exact .bind hfirst hrest

theorem yields_readMap {value : Reader Value} {rows : List (String × Value × List UInt8)}
    (hlength : rows.length < maxLength)
    (hkeys : ∀ row ∈ rows, (encodeUtf8 row.1).length < maxLength)
    (hvalue : ∀ row ∈ rows, Yields value row.2.2 row.2.1) :
    Yields (readMap value)
      (encodeBlock rows.length (rows.flatMap fun row => (Step.string row.1).encode ++ row.2.2))
      (.map (rows.map fun row => (row.1, row.2.1))) := by
  refine .bind_pure (.blocks hlength (yields_entries hkeys hvalue [])) ?_
  rw [List.append_nil, List.reverse_reverse]
  exact .pure _

/-! ## Scalars -/

theorem yields_boolean (value : Bool) : Yields boolean (Step.boolean value).encode value := by
  refine .bind_pure (byte_cons _) ?_
  cases value <;> exact .pure _

/-- A number that fits in 32 bits. -/
theorem yields_int_of_range {value : Int64} (hlower : -2147483648 ≤ value.toInt)
    (hupper : value.toInt ≤ 2147483647) :
    Yields int (zigzagBytes value) (Int32.ofInt value.toInt) := by
  refine .bind_pure (long_run value) ?_
  rw [if_pos ⟨hlower, hupper⟩]
  exact .pure _

theorem yields_int (value : Int32) : Yields int (Step.int value).encode value := by
  have hlower := value.le_toInt
  have hupper := value.toInt_lt
  have hsame : (Int64.ofInt value.toInt).toInt = value.toInt := by
    rw [Int64.toInt_ofInt_of_le] <;> omega
  have h := @yields_int_of_range (.ofInt value.toInt) (by omega) (by omega)
  rwa [hsame, Int32.ofInt_toInt] at h

theorem yields_ordinal {ordinal : Nat} (h : ordinal < 2147483648) :
    Yields int (Step.ordinal ordinal).encode (Int32.ofNat ordinal) := by
  have hsame : (Int64.ofNat ordinal).toInt = ordinal := Int64.toInt_ofNat_of_lt (by omega)
  have hread := @yields_int_of_range (.ofNat ordinal) (by omega) (by omega)
  rwa [hsame] at hread

theorem littleEndian_littleEndianBytes (width n : Nat) :
    littleEndian (littleEndianBytes width n) = n % 256 ^ width := by
  induction width generalizing n with
  | zero => rw [littleEndianBytes, littleEndian, Nat.pow_zero, Nat.mod_one]
  | succ width ih =>
    have hpow : 256 ^ (width + 1) = 256 * 256 ^ width := Nat.pow_succ'
    rw [littleEndianBytes, littleEndian, ih, UInt8.toNat_ofNat', hpow, Nat.mod_mul]

theorem yields_float (value : Binary32) : Yields float (Step.float value).encode value := by
  have hbytes := take_append (littleEndianBytes 4 value.bits.toNat)
  rw [length_littleEndianBytes] at hbytes
  refine .bind_pure hbytes ?_
  have hbits : UInt32.ofNat (littleEndian (littleEndianBytes 4 value.bits.toNat)) = value.bits := by
    have hlt : value.bits.toNat < 256 ^ 4 := value.bits.toNat_lt
    rw [littleEndian_littleEndianBytes, Nat.mod_eq_of_lt hlt, UInt32.ofNat_toNat]
  rw [hbits]
  exact .pure value

theorem yields_double (value : Binary64) : Yields double (Step.double value).encode value := by
  have hbytes := take_append (littleEndianBytes 8 value.bits.toNat)
  rw [length_littleEndianBytes] at hbytes
  refine .bind_pure hbytes ?_
  have hbits : UInt64.ofNat (littleEndian (littleEndianBytes 8 value.bits.toNat)) = value.bits := by
    have hlt : value.bits.toNat < 256 ^ 8 := value.bits.toNat_lt
    rw [littleEndian_littleEndianBytes, Nat.mod_eq_of_lt hlt, UInt64.ofNat_toNat]
  rw [hbits]
  exact .pure value

theorem yields_branchIndex {count index : Nat} (hindex : index < count) (h : index < maxLength) :
    Yields (branchIndex count) (Step.index index).encode ⟨index, hindex⟩ := by
  have hsame : (Int64.ofNat index).toInt = index := Int64.toInt_ofNat_of_lt h
  have hnonneg : (0 : Int64) ≤ Int64.ofNat index := by
    rw [Int64.le_iff_toInt_le, hsame]
    exact Int.natCast_nonneg index
  refine .bind_pure (long_run _) ?_
  simp only [hsame, Int.toNat_natCast, hnonneg, hindex, and_self, dif_pos]
  exact .pure _

/-- The place of an enum symbol, when the adjustment knows the symbol at that place. -/
theorem yields_readEnum {adjustment : EnumAdjustment} {ordinal reader : Nat} {symbol : String}
    (hordinal : ordinal < 2147483648) (hresolve : adjustment.resolve ordinal = some reader)
    (hsymbol : adjustment.symbols[reader]? = some symbol) :
    Yields (readEnum adjustment) (Step.ordinal ordinal).encode
      (.enum (Int32.ofNat reader) symbol) := by
  have hplace : (Int32.ofNat ordinal).toInt = ordinal := Int32.toInt_ofNat_of_lt hordinal
  have hnonneg : ¬Int32.ofNat ordinal < 0 := by
    rw [Int32.lt_iff_toInt_lt, hplace]
    exact Int.not_lt.2 (Int.natCast_nonneg ordinal)
  refine .bind_pure (yields_ordinal hordinal) ?_
  rw [if_neg hnonneg, hplace]
  simp only [Int.toNat_natCast, hresolve, hsymbol]
  exact .pure _

end Reader

/-! ## The format -/

/-- The step writes the value as one of the primitive type. -/
inductive Primitive.Represents : Primitive → Value → Step → Prop
  | null : Represents .null .null .null
  | boolean (value : Bool) : Represents .boolean (.boolean value) (.boolean value)
  | int (value : Int32) : Represents .int (.int value) (.int value)
  | long (value : Int64) : Represents .long (.long value) (.long value)
  | float (value : Binary32) : Represents .float (.float value) (.float value)
  | double (value : Binary64) : Represents .double (.double value) (.double value)
  | bytes {content : List UInt8} (hlength : content.length < maxLength) :
      Represents .bytes (.bytes content) (.bytes content)
  | string {text : String} (hlength : (encodeUtf8 text).length < maxLength) :
      Represents .string (.string text) (.string text)

theorem Primitive.Represents.yields {type : Primitive} {value : Value} {step : Step}
    (h : type.Represents value step) :
    Reader.Yields (Program.readTerminal (.primitive type)) step.encode value := by
  cases h with
  | null => exact .pure _
  | boolean value => exact .bind_pure (Reader.yields_boolean value) (.pure _)
  | int value => exact .bind_pure (Reader.yields_int value) (.pure _)
  | long value => exact .bind_pure (Reader.long_run value) (.pure _)
  | float value => exact .bind_pure (Reader.yields_float value) (.pure _)
  | double value => exact .bind_pure (Reader.yields_double value) (.pure _)
  | bytes hlength => exact .bind_pure (Reader.bytes_run hlength) (.pure _)
  | string hlength => exact .bind_pure (Reader.string_run hlength) (.pure _)

namespace Registry

/-- The bytes stand for the value as data of the node.  Of an enum's symbols and a union's
branches only the places that `admits` allows may be written.  An array has at most
`zeroWidthLimit` items without bytes, and lengths are below `maxLength`. -/
inductive Represents (registry : Registry) (admits : Shape → Nat → Prop) :
    Node → Value → List UInt8 → Prop
  | primitive {node : Node} {type : Primitive} {value : Value} {step : Step}
      (hshape : registry.shape? node = some (.primitive type))
      (hstep : type.Represents value step) : Represents registry admits node value step.encode
  | enum {node : Node} {heading : Heading} {symbols : List String} {default? : Option String}
      {ordinal : Nat} {symbol : String}
      (hshape : registry.shape? node = some (.named (.enum heading symbols default?)))
      (hsymbol : symbols[ordinal]? = some symbol) (hordinal : ordinal < 2147483648)
      (hadmits : admits (.named (.enum heading symbols default?)) ordinal) :
      Represents registry admits node (.enum (Int32.ofNat ordinal) symbol)
        (Step.ordinal ordinal).encode
  | fixed {node : Node} {heading : Heading} {size : Nat} {content : List UInt8}
      (hshape : registry.shape? node = some (.named (.fixed heading size)))
      (hsize : content.length = size) :
      Represents registry admits node (.fixed content) (Step.fixed content).encode
  | record {node : Node} {record : RecordNode} {rows : List (Field Node × Value × List UInt8)}
      (hshape : registry.shape? node = some (.named (.record record)))
      (hfields : rows.map (·.1) = record.fields)
      (hrows : ∀ row ∈ rows, Represents registry admits row.1.type row.2.1 row.2.2) :
      Represents registry admits node (.record (rows.map fun row => (row.1.name, row.2.1)))
        (rows.flatMap (·.2.2))
  | array {node items : Node} {rows : List (Value × List UInt8)}
      (hshape : registry.shape? node = some (.array items)) (hlength : rows.length < maxLength)
      (hlimit : rows.countP (·.2.isEmpty) ≤ zeroWidthLimit)
      (hrows : ∀ row ∈ rows, Represents registry admits items row.1 row.2) :
      Represents registry admits node (.array (rows.map (·.1)))
        (encodeBlock rows.length (rows.flatMap (·.2)))
  | map {node values : Node} {rows : List (String × Value × List UInt8)}
      (hshape : registry.shape? node = some (.map values)) (hlength : rows.length < maxLength)
      (hkeys : ∀ row ∈ rows, (encodeUtf8 row.1).length < maxLength)
      (hrows : ∀ row ∈ rows, Represents registry admits values row.2.1 row.2.2) :
      Represents registry admits node (.map (rows.map fun row => (row.1, row.2.1)))
        (encodeBlock rows.length (rows.flatMap fun row => (Step.string row.1).encode ++ row.2.2))
  | union {node branch : Node} {branches : List Node} {index : Nat} {value : Value}
      {bytes : List UInt8} (hshape : registry.shape? node = some (.union branches))
      (hbranch : branches[index]? = some branch) (hindex : index < maxLength)
      (hadmits : admits (.union branches) index)
      (hvalue : Represents registry admits branch value bytes) :
      Represents registry admits node (.union (Int32.ofNat index) value)
        ((Step.index index).encode ++ bytes)

end Registry

end AvroResolution
