import AvroResolution.Proofs.Resolution.Replay
import AvroResolution.Proofs.Resolution.Wire

/-!
# Written values are read back

Writing a value step by step, and decoding the bytes by the program of its schema's own
grammar, gives the value again and leaves what stands behind it.

* `Value.steps` are the steps that write a value, `Value.encoding` the bytes that an
  `Encoder` has of them.
* `Registry.Conforms.represents`: the encoding of a value of a node stands for the value by
  the rules of the format.
* `Registry.Represents.yields` reads back what stands for a value, node by node, and
  `Program.decode_encoding` says so of the whole program.
-/

namespace AvroResolution

namespace Value

/-! ## The encoding of a value -/

/-- The steps of a collection: one block of its items, unless it has none, and the count of
zero that ends the blocks. -/
def blockSteps (count : Nat) (items : List Step) : List Step :=
  (if count = 0 then [] else .count count :: items) ++ [.count 0]

mutual

/-- The steps that write a value. -/
def steps : Value → List Step
  | .null => [.null]
  | .boolean value => [.boolean value]
  | .int value => [.int value]
  | .long value => [.long value]
  | .float value => [.float value]
  | .double value => [.double value]
  | .bytes content => [.bytes content]
  | .string text => [.string text]
  | .fixed content => [.fixed content]
  | .enum index _ => [.ordinal index.toInt.toNat]
  | .union index value => .index index.toInt.toNat :: steps value
  | .record fields => fieldSteps fields
  | .array items => blockSteps items.length (itemSteps items)
  | .map entries => blockSteps entries.length (entrySteps entries)

/-- The steps that write fields in their order. -/
def fieldSteps : List (String × Value) → List Step
  | [] => []
  | (_, value) :: rest => steps value ++ fieldSteps rest

/-- The steps that write the items of an array. -/
def itemSteps : List Value → List Step
  | [] => []
  | value :: rest => steps value ++ itemSteps rest

/-- The steps that write the entries of a map. -/
def entrySteps : List (String × Value) → List Step
  | [] => []
  | (key, value) :: rest => .string key :: (steps value ++ entrySteps rest)

end

/-- The bytes that the steps of a value write. -/
def encoding (value : Value) : List UInt8 :=
  (value.steps.foldl Encoder.write {}).bytes

theorem bytes_foldl_write (steps : List Step) (encoder : Encoder) :
    (steps.foldl Encoder.write encoder).bytes = encoder.bytes ++ steps.flatMap Step.encode := by
  induction steps generalizing encoder with
  | nil => simp
  | cons step rest ih =>
    rw [List.foldl_cons, ih, Encoder.write, List.flatMap_cons, List.append_assoc]

theorem encoding_eq (value : Value) : value.encoding = value.steps.flatMap Step.encode := by
  rw [encoding, bytes_foldl_write, List.nil_append]

theorem encode_blockSteps (count : Nat) (items : List Step) :
    (blockSteps count items).flatMap Step.encode =
      encodeBlock count (items.flatMap Step.encode) := by
  rw [blockSteps, encodeBlock]
  split <;> simp

theorem encoding_record (fields : List (String × Value)) :
    (Value.record fields).encoding = fields.flatMap (·.2.encoding) := by
  rw [encoding_eq, steps]
  induction fields with
  | nil => rfl
  | cons field rest ih =>
    rw [fieldSteps, List.flatMap_append, ih, List.flatMap_cons, encoding_eq]

theorem encoding_array (items : List Value) :
    (Value.array items).encoding = encodeBlock items.length (items.flatMap encoding) := by
  rw [encoding_eq, steps, encode_blockSteps]
  congr 1
  induction items with
  | nil => rfl
  | cons item rest ih => rw [itemSteps, List.flatMap_append, ih, List.flatMap_cons, encoding_eq]

theorem encoding_map (entries : List (String × Value)) :
    (Value.map entries).encoding = encodeBlock entries.length
      (entries.flatMap fun entry => (Step.string entry.1).encode ++ entry.2.encoding) := by
  rw [encoding_eq, steps, encode_blockSteps]
  congr 1
  induction entries with
  | nil => rfl
  | cons entry rest ih =>
    rw [entrySteps, List.flatMap_cons, List.flatMap_append, ih, List.flatMap_cons, encoding_eq,
      List.append_assoc]

theorem encoding_union (index : Int32) (value : Value) :
    (Value.union index value).encoding =
      (Step.index index.toInt.toNat).encode ++ value.encoding := by
  rw [encoding_eq, steps, List.flatMap_cons, encoding_eq]

/-! ## Values that can be written -/

mutual

/-- Whether a value and all values in it pass a test. -/
def all (test : Value → Bool) : Value → Bool
  | .record fields => test (.record fields) && allFields test fields
  | .array items => test (.array items) && allItems test items
  | .map entries => test (.map entries) && allFields test entries
  | .union index value => test (.union index value) && all test value
  | value => test value

/-- Whether the values of fields or entries, and all values in them, pass a test. -/
def allFields (test : Value → Bool) : List (String × Value) → Bool
  | [] => true
  | (_, value) :: rest => all test value && allFields test rest

/-- Whether items, and all values in them, pass a test. -/
def allItems (test : Value → Bool) : List Value → Bool
  | [] => true
  | value :: rest => all test value && allItems test rest

end

/-- The lengths in the value, but for those of its parts, are below `maxLength`. -/
def addressable : Value → Bool
  | .bytes content => content.length < maxLength
  | .string text => (encodeUtf8 text).length < maxLength
  | .array items => items.length < maxLength
  | .map entries => entries.length < maxLength &&
      entries.all fun entry => (encodeUtf8 entry.1).length < maxLength
  | _ => true

/-- If the value is an array, it has at most `zeroWidthLimit` items without bytes. -/
def widthBounded : Value → Bool
  | .array items => items.countP (·.encoding.isEmpty) ≤ zeroWidthLimit
  | _ => true

variable {test : Value → Bool} {value : Value}

theorem allFields_iff {fields : List (String × Value)} :
    allFields test fields = true ↔ ∀ part ∈ fields.map (·.2), part.all test = true := by
  induction fields with
  | nil => simp [allFields]
  | cons field rest ih => simp [allFields, ih]

theorem allItems_iff {items : List Value} :
    allItems test items = true ↔ ∀ item ∈ items, item.all test = true := by
  induction items with
  | nil => simp [allItems]
  | cons item rest ih => simp [allItems, ih]

theorem all_iff : value.all test = true ↔
    test value = true ∧ ∀ part ∈ value.parts, part.all test = true := by
  cases value with
  | record fields => rw [all, Bool.and_eq_true, allFields_iff, parts]
  | array items => rw [all, Bool.and_eq_true, allItems_iff, parts]
  | map entries => rw [all, Bool.and_eq_true, allFields_iff, parts]
  | union index value => simp [all, parts]
  | _ => simp [all, parts]

theorem OfPrimitive.represents {type : Primitive} (h : OfPrimitive type value)
    (haddressable : value.addressable = true) :
    ∃ step, type.Represents value step ∧ value.encoding = step.encode := by
  have hsingle (step : Step) : [step].flatMap Step.encode = step.encode :=
    List.flatMap_singleton _ _
  cases h with
  | null => exact ⟨_, .null, rfl⟩
  | boolean value => exact ⟨_, .boolean value, encoding_eq _ ▸ hsingle _⟩
  | int value => exact ⟨_, .int value, encoding_eq _ ▸ hsingle _⟩
  | long value => exact ⟨_, .long value, encoding_eq _ ▸ hsingle _⟩
  | float value => exact ⟨_, .float value, encoding_eq _ ▸ hsingle _⟩
  | double value => exact ⟨_, .double value, encoding_eq _ ▸ hsingle _⟩
  | bytes content =>
    exact ⟨_, .bytes (of_decide_eq_true haddressable), encoding_eq _ ▸ hsingle _⟩
  | string text =>
    exact ⟨_, .string (of_decide_eq_true haddressable), encoding_eq _ ▸ hsingle _⟩

end Value

/-! ## The encoding stands for the value -/

namespace Registry

variable {registry : Registry} {node : Node} {value : Value} {bytes : List UInt8}

/-- A place of 32 bits as a number and back. -/
theorem ofNat_toNat_of_nonneg {place : Int32} (h : 0 ≤ place.toInt) :
    Int32.ofNat place.toInt.toNat = place ∧ place.toInt.toNat < 2147483648 := by
  have hlt := place.toInt_lt
  have hsame : (place.toInt.toNat : Int) = place.toInt := Int.toNat_of_nonneg h
  refine ⟨?_, by omega⟩
  rw [← Int32.ofInt_eq_ofNat, hsame, Int32.ofInt_toInt]

/-- The fields of a record side by side with the values of a record that has their names. -/
theorem exists_rows {fields : List (Field Node)} {entries : List (String × Value)}
    (hnames : entries.map Prod.fst = fields.map (·.name)) :
    ∃ rows : List (Field Node × Value × List UInt8), rows.map (·.1) = fields ∧
      rows.map (fun row => (row.1.name, row.2.1)) = entries ∧
        ∀ row ∈ rows, row.2.2 = row.2.1.encoding := by
  induction entries generalizing fields with
  | nil =>
    obtain rfl := List.map_eq_nil_iff.1 hnames.symm
    exact ⟨[], rfl, rfl, nofun⟩
  | cons entry entries ih =>
    cases fields with
    | nil => cases hnames
    | cons field fields =>
      obtain ⟨hname, hrest⟩ := List.cons.inj hnames
      obtain ⟨rows, rfl, rfl, hencodings⟩ := ih hrest
      refine ⟨(field, entry.2, entry.2.encoding) :: rows, rfl, ?_,
        List.forall_mem_cons.2 ⟨rfl, hencodings⟩⟩
      exact congrArg (· :: _) (Prod.ext hname.symm rfl)

/-- The encoding of a value of a node stands for the value.  The induction is on the
conformance. -/
theorem Conforms.represents (h : registry.Conforms node value)
    (haddressable : value.all Value.addressable = true)
    (hwidth : value.all Value.widthBounded = true) :
    registry.Represents (fun _ _ => True) node value value.encoding := by
  induction h with
  | primitive hshape hvalue =>
    obtain ⟨step, hstep, hencoding⟩ := hvalue.represents (Value.all_iff.1 haddressable).1
    rw [hencoding]
    exact .primitive hshape hstep
  | fixed hshape hsize =>
    rw [Value.encoding_eq, Value.steps, List.flatMap_singleton]
    exact .fixed hshape hsize
  | @enum node heading symbols default? index symbol hshape hindex hsymbol =>
    obtain ⟨hplace, hlt⟩ := ofNat_toNat_of_nonneg hindex
    have h : registry.Represents (fun _ _ => True) node
        (.enum (Int32.ofNat index.toInt.toNat) symbol) _ := .enum hshape hsymbol hlt trivial
    rw [hplace] at h
    rwa [Value.encoding_eq, Value.steps, List.flatMap_singleton]
  | @array node items values hshape _ ih =>
    obtain ⟨hlength, hparts⟩ := Value.all_iff.1 haddressable
    obtain ⟨hcount, hwidths⟩ := Value.all_iff.1 hwidth
    have h := @Represents.array registry (fun _ _ => True) node items
      (values.map fun value => (value, value.encoding)) hshape
      (by simpa using of_decide_eq_true hlength) ?_ ?_
    · rw [Value.encoding_array]
      simpa [List.flatMap_map, Function.comp_def] using h
    · rw [List.countP_map]
      exact of_decide_eq_true hcount
    · intro row hrow
      obtain ⟨value, hvalue, rfl⟩ := List.mem_map.1 hrow
      exact ih value hvalue (hparts value hvalue) (hwidths value hvalue)
  | @map node content entries hshape _ ih =>
    obtain ⟨hlength, hparts⟩ := Value.all_iff.1 haddressable
    obtain ⟨-, hwidths⟩ := Value.all_iff.1 hwidth
    rw [Value.addressable, Bool.and_eq_true, decide_eq_true_eq, List.all_eq_true] at hlength
    have h := @Represents.map registry (fun _ _ => True) node content
      (entries.map fun entry => (entry.1, entry.2, entry.2.encoding)) hshape
      (by simpa using hlength.1) ?_ ?_
    · rw [Value.encoding_map]
      simpa [List.flatMap_map, Function.comp_def] using h
    · intro row hrow
      obtain ⟨entry, hentry, rfl⟩ := List.mem_map.1 hrow
      exact of_decide_eq_true (hlength.2 entry hentry)
    · intro row hrow
      obtain ⟨entry, hentry, rfl⟩ := List.mem_map.1 hrow
      have hpart : entry.2 ∈ (Value.map entries).parts := List.mem_map_of_mem hentry
      exact ih entry hentry (hparts _ hpart) (hwidths _ hpart)
  | @record node record fields hshape hnames _ ih =>
    obtain ⟨-, hparts⟩ := Value.all_iff.1 haddressable
    obtain ⟨-, hwidths⟩ := Value.all_iff.1 hwidth
    obtain ⟨rows, hfields, rfl, hencodings⟩ := exists_rows hnames
    have h := @Represents.record registry (fun _ _ => True) node record rows hshape hfields ?_
    · rw [Value.encoding_record, List.flatMap_map]
      rwa [List.flatMap_congr hencodings] at h
    · intro row hrow
      obtain ⟨index, hindex⟩ := List.mem_iff_getElem?.1 hrow
      have hfield : record.fields[index]? = some row.1 := by
        rw [← hfields, List.getElem?_map, hindex, Option.map_some]
      have hpart : row.2.1 ∈ (Value.record (rows.map fun row => (row.1.name, row.2.1))).parts :=
        List.mem_map_of_mem (List.mem_map_of_mem hrow)
      rw [hencodings row hrow]
      exact ih index row.1 (row.1.name, row.2.1) hfield
        (by rw [List.getElem?_map, hindex, Option.map_some]) (hparts _ hpart) (hwidths _ hpart)
  | @union node branch branches index value hshape hindex hbranch _ ih =>
    obtain ⟨-, hparts⟩ := Value.all_iff.1 haddressable
    obtain ⟨-, hwidths⟩ := Value.all_iff.1 hwidth
    obtain ⟨hplace, hlt⟩ := ofNat_toNat_of_nonneg hindex
    have h : registry.Represents (fun _ _ => True) node
        (.union (Int32.ofNat index.toInt.toNat) value) _ :=
      .union hshape hbranch (Nat.lt_trans hlt (by decide)) trivial
        (ih (hparts value (.head _)) (hwidths value (.head _)))
    rw [hplace] at h
    rwa [Value.encoding_union]

/-- A record conforms if its fields do, one by one. -/
theorem Conforms.of_forall₂ {record : RecordNode} {fields : List (String × Value)}
    (hshape : registry.shape? node = some (.named (.record record)))
    (hfields : List.Forall₂ (fun (field : Field Node) (entry : String × Value) =>
      entry.1 = field.name ∧ registry.Conforms field.type entry.2) record.fields fields) :
    registry.Conforms node (.record fields) := by
  have hnames : fields.map Prod.fst = record.fields.map (·.name) := by
    generalize record.fields = types at hfields
    induction hfields with
    | nil => rfl
    | cons hfield _ ih => rw [List.map_cons, List.map_cons, hfield.1, ih]
  exact .record hshape hnames fun index field entry hfield hentry =>
    (related_of_getElem? hfields hfield hentry).2

/-! ## Reading back -/

theorem yields_plainFields {read : Node → Reader Value}
    {rows : List (Field Node × Value × List UInt8)}
    (h : ∀ row ∈ rows, Reader.Yields (read row.1.type) row.2.2 row.2.1) :
    Reader.Yields (plainFields read (rows.map (·.1))) (rows.flatMap (·.2.2))
      (rows.map fun row => (row.1.name, row.2.1)) := by
  induction rows with
  | nil => exact .pure []
  | cons row rest ih =>
    have hrest := ih fun other hother => h other (.tail _ hother)
    exact .bind (h row (.head _)) (.bind_pure hrest (.pure _))

theorem resolve_keep {symbols : List String} {ordinal : Nat} {symbol : String}
    (h : symbols[ordinal]? = some symbol) :
    (EnumAdjustment.keep symbols).resolve ordinal = some ordinal := by
  obtain ⟨hlt, -⟩ := List.getElem?_eq_some_iff.1 h
  simp [EnumAdjustment.resolve, EnumAdjustment.keep, hlt]

/-- Reading a node reads back what stands for a value, if it may go deeper than the value.  The
induction is on the rules of the format. -/
theorem Represents.yields {admits : Shape → Nat → Prop}
    (h : registry.Represents admits node value bytes) {depth : Nat}
    (hdepth : sizeOf value < depth) :
    Reader.Yields (registry.plainWithin depth node) bytes value := by
  induction h generalizing depth with
  | primitive hshape hstep =>
    obtain ⟨less, rfl⟩ := Nat.exists_eq_add_one.2 (Nat.zero_lt_of_lt hdepth)
    rw [plainWithin, plainStep_primitive hshape]
    exact hstep.yields
  | enum hshape hsymbol hordinal _ =>
    obtain ⟨less, rfl⟩ := Nat.exists_eq_add_one.2 (Nat.zero_lt_of_lt hdepth)
    rw [plainWithin, plainStep_enum hshape]
    exact Reader.yields_readEnum hordinal (resolve_keep hsymbol) hsymbol
  | fixed hshape hsize =>
    subst hsize
    obtain ⟨less, rfl⟩ := Nat.exists_eq_add_one.2 (Nat.zero_lt_of_lt hdepth)
    rw [plainWithin, plainStep_fixed hshape]
    exact .bind_pure (Reader.take_append _) (.pure _)
  | @record node record rows hshape hfields _ ih =>
    obtain ⟨less, rfl⟩ := Nat.exists_eq_add_one.2 (Nat.zero_lt_of_lt hdepth)
    rw [plainWithin, plainStep_record hshape, ← hfields]
    refine .bind_pure (yields_plainFields fun row hrow => ?_) (.pure _)
    have hless : sizeOf row.2.1 <
        sizeOf (Value.record (rows.map fun row => (row.1.name, row.2.1))) :=
      Value.sizeOf_lt_of_mem_parts (List.mem_map_of_mem (List.mem_map_of_mem hrow))
    exact ih row hrow (by omega)
  | @array node items rows hshape hlength hlimit _ ih =>
    obtain ⟨less, rfl⟩ := Nat.exists_eq_add_one.2 (Nat.zero_lt_of_lt hdepth)
    rw [plainWithin, plainStep_array hshape]
    refine Reader.yields_readArray hlength hlimit fun row hrow => ?_
    have hless : sizeOf row.1 < sizeOf (Value.array (rows.map (·.1))) :=
      Value.sizeOf_lt_of_mem_parts (List.mem_map_of_mem hrow)
    exact ih row hrow (by omega)
  | @map node values rows hshape hlength hkeys _ ih =>
    obtain ⟨less, rfl⟩ := Nat.exists_eq_add_one.2 (Nat.zero_lt_of_lt hdepth)
    rw [plainWithin, plainStep_map hshape]
    refine Reader.yields_readMap hlength hkeys fun row hrow => ?_
    have hless : sizeOf row.2.1 < sizeOf (Value.map (rows.map fun row => (row.1, row.2.1))) :=
      Value.sizeOf_lt_of_mem_parts (List.mem_map_of_mem (List.mem_map_of_mem hrow))
    exact ih row hrow (by omega)
  | @union node branch branches index value bytes hshape hbranch hindex _ _ ih =>
    obtain ⟨less, rfl⟩ := Nat.exists_eq_add_one.2 (Nat.zero_lt_of_lt hdepth)
    obtain ⟨hlt, rfl⟩ := List.getElem?_eq_some_iff.1 hbranch
    have hless : sizeOf value < sizeOf (Value.union (Int32.ofNat index) value) :=
      Value.sizeOf_lt_of_mem_parts (.head _)
    rw [plainWithin, plainStep_union hshape]
    refine .bind (Reader.yields_branchIndex hlt hindex) ?_
    exact .bind_pure (ih (by omega)) (.pure _)

end Registry

namespace Program

variable {schema : Schema} {program : Program}

/-- The program of a schema's own grammar reads back every value of the schema from its
encoding, and leaves what stands behind it.  No array may have more than `zeroWidthLimit` items
that are written as no bytes.  All lengths are below `maxLength`, as those of all that is held in
memory are. -/
theorem decode_encoding (hprogram : Program.validating schema = .ok program) {value : Value}
    (hconforms : (Registry.ofRoot (.root .writer schema)).Conforms (.root .writer schema) value)
    (haddressable : value.all Value.addressable = true)
    (hwidth : value.all Value.widthBounded = true) (rest : List UInt8) :
    program.decode (.ofList (value.encoding ++ rest)) = .ok value (.ofList rest) := by
  obtain ⟨builder, hvalidated⟩ := Program.validated hprogram
  have hrepresents := hconforms.represents haddressable hwidth
  exact (hvalidated.decode_eq_iff Reader.not_givesUp_ok).2
    ⟨sizeOf value + 1, hrepresents.yields (Nat.lt_succ_self _) rest⟩

/-- Entries of a ledger, each with tags, marks that take no bytes, and perhaps an entry after
it. -/
def ledger : Schema :=
  .record ⟨"Entry", none, []⟩
    [⟨"at", .logical (.primitive .long) .timestampMillis, none, []⟩,
      ⟨"tags", .map (.primitive .string), none, []⟩,
      ⟨"marks", .array (.primitive .null), none, []⟩,
      ⟨"next", .union [.primitive .null, .reference "Entry"], none, []⟩]

/-- Two entries, of which the first has a tag and two marks. -/
def entries : Value :=
  .record [("at", .long 9223372036854775807), ("tags", .map [("é", .string "")]),
    ("marks", .array [.null, .null]),
    ("next", .union 1 (.record [("at", .long (-1)), ("tags", .map []), ("marks", .array []),
      ("next", .union 0 .null)]))]

theorem decode_encoding_ledger :
    ∃ program, Program.validating ledger = .ok program ∧
      (Registry.ofRoot (.root .writer ledger)).Conforms (.root .writer ledger) entries ∧
        program.decode (.ofList (entries.encoding ++ [7])) = .ok entries (.ofList [7]) := by
  obtain ⟨program, hprogram, -⟩ := Reader.exists_ok (Program.validating ledger) (fun _ => true)
    (by decide +kernel)
  have hlast : (Registry.ofRoot (.root .writer ledger)).Conforms ⟨.writer, 1, .reference "Entry"⟩
      (.record [("at", .long (-1)), ("tags", .map []), ("marks", .array []),
        ("next", .union 0 .null)]) :=
    .of_forall₂ rfl (.cons ⟨rfl, .primitive rfl (.long _)⟩ (.cons ⟨rfl, .map rfl nofun⟩
      (.cons ⟨rfl, .array rfl nofun⟩
        (.cons ⟨rfl, .union rfl (by decide) rfl (.primitive rfl .null)⟩ .nil))))
  have hconforms : (Registry.ofRoot (.root .writer ledger)).Conforms (.root .writer ledger)
      entries := by
    refine .of_forall₂ rfl (.cons ⟨rfl, .primitive rfl (.long _)⟩ (.cons ⟨rfl, .map rfl ?_⟩
      (.cons ⟨rfl, .array rfl ?_⟩ (.cons ⟨rfl, .union rfl (by decide) rfl hlast⟩ .nil))))
    · exact List.forall_mem_singleton.2 (.primitive rfl (.string _))
    · exact List.forall_mem_cons.2 ⟨.primitive rfl .null,
        List.forall_mem_singleton.2 (.primitive rfl .null)⟩
  exact ⟨program, hprogram, hconforms,
    decode_encoding hprogram hconforms (by decide +kernel) (by decide +kernel) [7]⟩

end Program

end AvroResolution
