import AvroResolution.Proofs.Decoding.Fields

/-!
# No field is lost and none is read twice

Which fields of the reader's record a compiled record reads, from what, and what becomes of them in
the decoded value.

* `Matching.Faithful` says of a matching which reader fields it provides, each of them once, and
  which of them are linked by name, by alias or not at all.  `Matching.faithful`: every matching
  is faithful.
* `Matching.of_placeFields`: the values of a matching make a record only if every reader field
  arrives, and then they are the fields of the reader's record in its order.
* `SchemaPair.fields_once` is the result, for every pair of records of a compiled program.
-/

namespace AvroResolution

namespace Matching

variable {config : Config} {writer reader : List (Field Node)} {matching : Matching}

/-- The places of the reader's fields among those that arrive, and where each field comes from. -/
structure Faithful (config : Config) (writer reader : List (Field Node)) (matching : Matching) :
    Prop where
  /-- No reader field arrives twice. -/
  once : (matching.arrivals.map (·.index)).Nodup
  /-- All reader fields arrive, except those with a later field of the same name where the writer
  has a field of that name. -/
  all : ∀ index, index ∈ matching.arrivals.map (·.index) ↔
    ∃ field, reader[index]? = some field ∧ ¬Shadowed writer reader ⟨index, field⟩
  /-- A reader field arrives with its own name. -/
  named : ∀ arrival ∈ matching.arrivals, ∃ field, reader[arrival.index]? = some field ∧
    arrival.name = field.name
  /-- Each writer field is read as one reader field or dropped. -/
  links : matching.links.length = writer.length
  /-- A reader field is linked to the writer field of its name, or to one that an alias names if
  aliases are allowed and the writer lacks the name. -/
  source : ∀ (index : Nat) (field : ReaderField), matching.links[index]? = some (some field) →
    reader[field.index]? = some field.field ∧
      (fieldIndex? writer field.field.name = some index ∨
        config.fieldAliases = true ∧ Links.Aliased writer field index)
  /-- No reader field is linked to two writer fields. -/
  single : ∀ (index other : Nat) (field field' : ReaderField),
    matching.links[index]? = some (some field) → matching.links[other]? = some (some field') →
      field.index = field'.index → index = other
  /-- A reader field that is filled from its default is linked to no writer field, and the writer
  lacks its name. -/
  filled : ∀ field ∈ matching.defaulted,
    reader[field.reader.index]? = some field.reader.field ∧
      field.reader.field.default? = some field.default ∧
      fieldIndex? writer field.reader.field.name = none ∧
      ∀ index : Nat, matching.links[index]? ≠ some (some field.reader)

theorem faithful (h : ofFields config writer reader = .ok matching) :
    matching.Faithful config writer reader := by
  obtain ⟨hlinks, hdefaulted, hdefaults⟩ := of_ofFields h
  refine ⟨nodup_arrivals h, fun index => ?_, fun arrival harrival => ?_, length_links h,
    fun index field hlink => ?_, fun index other field field' hlink hother hindex => ?_,
    fun field hfield => ?_⟩
  · rw [map_index_arrivals, List.mem_map]
    constructor
    · rintro ⟨field, hfield, rfl⟩
      obtain ⟨hmem, hfree⟩ := (mem_readers h).1 hfield
      exact ⟨field.field, ReaderField.mem_ofFields.1 hmem, hfree⟩
    · rintro ⟨field, hget, hfree⟩
      exact ⟨⟨index, field⟩, (mem_readers h).2 ⟨ReaderField.mem_ofFields.2 hget, hfree⟩, rfl⟩
  · obtain ⟨field, hfield, rfl⟩ := List.mem_map.1 harrival
    exact ⟨field.field, ReaderField.mem_ofFields.1 ((mem_readers h).1 hfield).1, rfl⟩
  · rw [hlinks] at hlink
    obtain ⟨hmem, hsource⟩ := Links.source hlink
    exact ⟨ReaderField.mem_ofFields.1 hmem, hsource.imp And.left id⟩
  · rw [hlinks] at hlink hother
    exact Links.eq_of_index_eq hlink hother hindex
  · have hmem : field.reader ∈ matching.defaulted.map (·.reader) := List.mem_map_of_mem hfield
    rw [hdefaulted] at hmem
    obtain ⟨hreader, hname, hunread⟩ := mem_unmatched.1 hmem
    refine ⟨ReaderField.mem_ofFields.1 hreader, hdefaults field hfield, hname, ?_⟩
    intro index hlink
    rw [hlinks] at hlink
    exact hunread (Links.mem_readers.2 ⟨index, hlink⟩)

/-- Values make a record only if every reader field arrives, and then the record has the names of
the reader's record in its order. -/
theorem of_placeFields (h : ofFields config writer reader = .ok matching) {values : List Value}
    {record : Value} (hplace : placeFields matching.arrivals values = .ok record) :
    (∃ fields, record = .record fields ∧ fields.map (·.1) = reader.map (·.name)) ∧
      ∀ index, index < reader.length → index ∈ matching.arrivals.map (·.index) := by
  obtain ⟨hlength, hlt⟩ := AvroResolution.of_placeFields_ok hplace
  have hvalues : List.Forall₂ (fun _ _ => True) matching.readers values :=
    List.forall₂_iff_get.2 ⟨by rw [← length_arrivals, hlength], fun _ _ _ => trivial⟩
  constructor
  · obtain ⟨fields, hrecord, hcount, hfields⟩ := of_placeFields_ok h hvalues hplace
    refine ⟨fields, hrecord, List.ext_getElem? fun index => ?_⟩
    rw [List.getElem?_map, List.getElem?_map]
    cases hfield : reader[index]? with
    | none =>
      rw [List.getElem?_eq_none_iff] at hfield
      rw [List.getElem?_eq_none (by omega)]
      rfl
    | some field =>
      obtain ⟨value, hvalue, -⟩ := hfields index field hfield
      rw [hvalue]
      rfl
  · intro index hindex
    have hall : matching.readers.length = reader.length := by
      refine length_readers_eq h fun field hfield => ?_
      rw [← length_arrivals]
      exact hlt _ (List.mem_map_of_mem hfield)
    refine mem_of_nodup_of_lt (nodup_arrivals h) ?_ ?_
    · intro place hplace
      obtain ⟨arrival, harrival, rfl⟩ := List.mem_map.1 hplace
      rw [List.length_map]
      exact hlt arrival harrival
    · rwa [List.length_map, length_arrivals, hall]

end Matching

namespace Program

variable {program : Program} {context : Context} {builder : Builder} {w r : RecordNode}
  {id : SymbolId} {matching : Matching}

/-- A run of a record ends in putting the values of its fields in order. -/
theorem of_readRecord_ok {arrivals : List Arrival} {reads : List FieldRead} {input rest : Input}
    {value : Value} (h : readRecord arrivals reads input = .ok value rest) :
    ∃ values, placeFields arrivals values = .ok value := by
  obtain ⟨values, after, _, h⟩ := Reader.exists_of_bind h
  refine ⟨values.reverse, ?_⟩
  cases hplace : placeFields arrivals values.reverse with
  | error fault =>
    simp only [hplace] at h
    cases h
  | ok record =>
    simp only [hplace] at h
    cases h
    rfl

/-- A run of two records that gives a value puts the fields of their matching in order. -/
theorem Built.placed (hbuilt : program.Built context builder)
    (hmatching : Matching.ofFields context.config w.fields r.fields = .ok matching)
    (hrecord : builder.ReadsRecord context w r id) {depth : Nat} {input rest : Input}
    {value : Value} (hrun : program.runWithin depth id input = .ok value rest) :
    ∃ values, placeFields matching.arrivals values = .ok value := by
  cases depth with
  | zero => cases hrun
  | succ depth =>
    rw [runWithin] at hrun
    rcases hbuilt.record hrecord (program.runWithin depth) with
      ⟨field, hmissing, -⟩ | ⟨other, written, defaulted, hother, -, -, hreads⟩
    · cases hmissing.symm.trans hmatching
    · cases hother.symm.trans hmatching
      rw [hreads] at hrun
      exact of_readRecord_ok hrun

end Program

/-! ## The result -/

namespace SchemaPair

variable {pair : SchemaPair} {config : Config} {program : Program}

/-- Of any two records that the program reads as a sequence, the sequence has one symbol for each
field of the writer, three for each reader field that is filled from its default, and the order of
the values that these give, in which every reader field that is not shadowed is once.  The record
that a run gives has the fields of the reader, in the order of their declaration; where the order
lacks one of them, no run gives a record. -/
theorem fields_once (hprogram : pair.program config = .ok program) :
    ∃ builder, pair.build config = .ok (program.root, builder) ∧
      ∀ w r id symbols, (pair.context config).Defines w → (pair.context config).Defines r →
        builder.memo.lookup (.resolving w.id r.id) = some id →
          program.symbol? id = some (.sequence symbols) →
            ∃ (matching : Matching) (written : List Compile.WrittenField)
              (defaulted : List (List SymbolId)) (order : SymbolId),
              matching.Faithful config w.fields r.fields ∧
              symbols = written.map (·.symbol) ++ defaulted.flatten ++ [order] ∧
              List.Forall₂ (Builder.ReadsWritten (pair.context config) builder)
                (w.fields.zip matching.links) written ∧
              List.Forall₂ (Builder.ReadsDefault (pair.context config) builder)
                matching.defaulted defaulted ∧
              program.symbol? order = some (.reorder matching.arrivals) ∧
              matching.arrivals = written.filterMap (·.arrival?) ++
                matching.defaulted.map (fun field =>
                  ⟨field.reader.field.name, field.reader.index⟩) ∧
              (∀ depth input value rest, program.runWithin depth id input = .ok value rest →
                ∃ fields, value = .record fields ∧ fields.map (·.1) = r.fields.map (·.name)) ∧
              ∀ index, index < r.fields.length →
                index ∉ matching.arrivals.map (·.index) →
                  ∀ depth input, ∃ fault rest, program.runWithin depth id input =
                    .error fault rest := by
  obtain ⟨builder, hbuild, hbuilt, _⟩ := built hprogram
  refine ⟨builder, hbuild, fun w r id symbols hw hr hlookup hid => ?_⟩
  have hrecord := hbuilt.records w r id hw hr hlookup
  cases hrecord with
  | missing _ hmismatch =>
    rw [← hbuilt.symbol, hid] at hmismatch
    cases hmismatch
  | @fields matching written defaulted order hmatching hwritten hdefaulted horder hsequence =>
    have hrecord := hbuilt.records w r id hw hr hlookup
    rw [← hbuilt.symbol] at hsequence horder
    cases hid.symm.trans hsequence
    refine ⟨matching, written, defaulted, order, Matching.faithful hmatching, rfl, hwritten,
      hdefaulted, horder, ?_, fun depth input value rest hrun => ?_,
      fun index hindex hlost depth input => ?_⟩
    · exact (Compile.arrivals_of_written (Matching.length_links hmatching) hwritten).symm
    · obtain ⟨values, hplace⟩ := hbuilt.placed hmatching hrecord hrun
      exact (Matching.of_placeFields hmatching hplace).1
    · cases hrun : program.runWithin depth id input with
      | error fault rest => exact ⟨fault, rest, rfl⟩
      | ok value rest =>
        obtain ⟨values, hplace⟩ := hbuilt.placed hmatching hrecord hrun
        exact absurd ((Matching.of_placeFields hmatching hplace).2 index hindex) hlost

end SchemaPair

namespace People

/-- A person as it is written. -/
def person : Schema :=
  .record ⟨"Person", none, []⟩
    [⟨"name", .primitive .string, none, []⟩, ⟨"age", .primitive .int, none, []⟩,
      ⟨"note", .primitive .string, none, []⟩]

/-- A person in another order, with a field of another name and one that is filled. -/
def reordered : Schema :=
  .record ⟨"Person", none, []⟩
    [⟨"age", .primitive .long, none, []⟩, ⟨"label", .primitive .string, none, ["note"]⟩,
      ⟨"name", .primitive .string, none, []⟩, ⟨"score", .primitive .int, some (.integer 0), []⟩]

/-- A person that is asked for the age twice. -/
def doubled : Schema :=
  .record ⟨"Person", none, []⟩
    [⟨"age", .primitive .long, none, []⟩, ⟨"age", .primitive .int, none, []⟩]

/-- The record at the top of a schema. -/
def top (side : Side) : Schema → RecordNode
  | .record heading fields => ⟨⟨side, 0⟩, heading, Node.ofFields side 1 fields⟩
  | _ => ⟨⟨side, 0⟩, ⟨"", none, []⟩, []⟩

theorem defines_person (reader : Schema) :
    ((SchemaPair.twoTrees person reader).context {}).Defines (top .writer person) :=
  ⟨.root .writer person, Registry.holds_root _, rfl⟩

theorem defines_reordered :
    ((SchemaPair.twoTrees person reordered).context {}).Defines (top .reader reordered) :=
  ⟨.root .reader reordered, Registry.holds_root _, rfl⟩

theorem defines_doubled :
    ((SchemaPair.twoTrees person doubled).context {}).Defines (top .reader doubled) :=
  ⟨.root .reader doubled, Registry.holds_root _, rfl⟩

/-- The program of two records starts with the sequence of the pair. -/
def startsAtTop (pair : SchemaPair) : Bool :=
  match pair.program {}, pair.build {} with
  | .ok program, .ok (root, builder) =>
    builder.memo.lookup (.resolving ⟨.writer, 0⟩ ⟨.reader, 0⟩) == some root &&
      match program.symbol? program.root with
      | some (.sequence _) => true
      | _ => false
  | _, _ => false

theorem exists_startsAtTop {pair : SchemaPair} (h : startsAtTop pair = true) :
    ∃ program symbols, pair.program {} = .ok program ∧
      program.symbol? program.root = some (.sequence symbols) ∧
        ∀ builder, pair.build {} = .ok (program.root, builder) →
          builder.memo.lookup (.resolving ⟨.writer, 0⟩ ⟨.reader, 0⟩) = some program.root := by
  rw [startsAtTop] at h
  split at h
  · rename_i program root built hprogram hbuild
    rw [Bool.and_eq_true, beq_iff_eq] at h
    obtain ⟨hlookup, h⟩ := h
    split at h
    · rename_i symbols hroot
      refine ⟨program, symbols, hprogram, hroot, fun builder hbuilder => ?_⟩
      rw [hbuild, Except.ok.injEq, Prod.mk.injEq] at hbuilder
      obtain ⟨rfl, rfl⟩ := hbuilder
      exact hlookup
    · cases h
  · cases h

/-- Anna is 41, and there is a note about her. -/
def anna : List UInt8 := [8, 65, 110, 110, 97, 82, 2, 33]

/-- The program reads Anna. -/
def readsAnna (program : Program) : Bool :=
  match program.decode (.ofList anna) with
  | .ok _ _ => true
  | .error _ _ => false

/-- The later age of `doubled` takes the place of the earlier. -/
theorem shadowed_age : Shadowed (top .writer person).fields (top .reader doubled).fields
    ⟨0, ⟨"age", ⟨.reader, 1, .primitive .long⟩, none, []⟩⟩ :=
  ⟨rfl, ⟨1, ⟨"age", ⟨.reader, 1, .primitive .int⟩, none, []⟩⟩, .tail _ (.head _), rfl, by decide⟩

/-- A person is read in the order of the reader, and none is read that is asked for the age
twice. -/
theorem fields_once_people :
    (∃ program fields rest, (SchemaPair.twoTrees person reordered).program {} = .ok program ∧
      program.decode (.ofList anna) = .ok (.record fields) rest ∧
        fields.map (·.1) = ["age", "label", "name", "score"]) ∧
    ∃ program, (SchemaPair.twoTrees person doubled).program {} = .ok program ∧
      ∀ input, ∃ fault rest, program.decode input = .error fault rest := by
  constructor
  · obtain ⟨program, symbols, hprogram, hroot, hlookup⟩ :=
      exists_startsAtTop (show startsAtTop (.twoTrees person reordered) = true by decide +kernel)
    obtain ⟨other, hother, hreads⟩ :=
      Reader.exists_ok ((SchemaPair.twoTrees person reordered).program {}) readsAnna
        (by decide +kernel)
    cases hother.symm.trans hprogram
    obtain ⟨builder, hbuild, hfields⟩ := SchemaPair.fields_once hprogram
    obtain ⟨_, _, _, _, _, _, _, _, _, _, hnames, -⟩ := hfields _ _ _ _ (defines_person _)
      defines_reordered (hlookup builder hbuild) hroot
    rw [readsAnna] at hreads
    split at hreads
    · rename_i value rest hdecode
      obtain ⟨fields, rfl, hmap⟩ := hnames _ _ _ _ hdecode
      exact ⟨program, fields, rest, hprogram, hdecode, hmap⟩
    · cases hreads
  · obtain ⟨program, symbols, hprogram, hroot, hlookup⟩ :=
      exists_startsAtTop (show startsAtTop (.twoTrees person doubled) = true by decide +kernel)
    obtain ⟨builder, hbuild, hfields⟩ := SchemaPair.fields_once hprogram
    obtain ⟨_, _, _, _, hfaithful, _, _, _, _, _, -, hlost⟩ := hfields _ _ _ _ (defines_person _)
      defines_doubled (hlookup builder hbuild) hroot
    refine ⟨program, hprogram, fun input => hlost 0 (by decide) ?_ _ input⟩
    rw [hfaithful.all]
    rintro ⟨field, hfield, hfree⟩
    cases hfield
    exact hfree shadowed_age

end People

end AvroResolution
