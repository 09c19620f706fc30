import AvroResolution.Proofs.Decoding.Following
import AvroResolution.Proofs.Decoding.Validating

/-!
# Compiled programs fit together

No compiled program makes the decoder meet a symbol out of place, a value that it
cannot promote, or bytes left over after a default.

* `Program.MayMeet` lists the faults that remain: faults of the data, a field without
  a place, which takes two fields of one name in a record that is read into, and
  mismatches that the program lists.
* `Program.Built.mayMeet` is the step from the runs of parts to the run of a symbol,
  and by induction on the depth what every run meets.
* `SharedTree.decode_leftover`: where one schema is a part of the other, bytes may be left
  over all the same.
-/

namespace AvroResolution

/-- The faults that a program may meet, where `readInto` are the records that it reads
into. -/
inductive Program.MayMeet (program : Program) (readInto : RecordNode → Prop) : DecodeFault → Prop
  | data {fault : DecodeFault} (hdata : fault.ofData) : MayMeet program readInto fault
  | place {record : RecordNode} {field : String} {index : Nat} (hrecord : readInto record)
      (hnames : ¬(record.fields.map (·.name)).Nodup) :
      MayMeet program readInto (.program (.readerIndex field index))
  | mismatch {cause : Mismatch} (hcause : cause ∈ program.mismatches) :
      MayMeet program readInto (.mismatch cause)

namespace Program.MayMeet

variable {program : Program} {readInto : RecordNode → Prop}

theorem mono {readInto' : RecordNode → Prop} {fault : DecodeFault}
    (h : program.MayMeet readInto fault) (hsubset : ∀ record, readInto record → readInto' record) :
    program.MayMeet readInto' fault := by
  cases h with
  | data hdata => exact .data hdata
  | place hrecord hnames => exact .place (hsubset _ hrecord) hnames
  | mismatch hcause => exact .mismatch hcause

theorem listed {cause : Mismatch} (h : program.MayMeet readInto (.mismatch cause)) :
    cause.message ∈ program.errors ∧ program.hasErrors = true := by
  cases h with
  | data hdata => cases hdata
  | mismatch hcause =>
    exact ⟨List.mem_map_of_mem hcause, hasErrors_iff.2 (List.ne_nil_of_mem hcause)⟩

end Program.MayMeet

/-- The record is the reader's record of a pair of records that was compiled. -/
def Builder.ReadsInto (context : Context) (builder : Builder) (record : RecordNode) : Prop :=
  context.Defines record ∧
    ∃ writer id, builder.memo.lookup (.resolving writer record.id) = some id

namespace Program

variable {context : Context} {program : Program} {builder : Builder} {id : SymbolId}

/-- A run of a compiled symbol that the root leads to meets none but these faults.  The
induction is on the depth of the run. -/
theorem Built.mayMeet (hbuilt : program.Built context builder)
    (haddressable : context.Addressable) (depth : Nat) {writer reader : Node}
    (hreads : builder.Reads context writer reader id) (hwriter : context.Holds writer)
    (hreader : context.Holds reader) (hleads : program.Leads program.root id) :
    Reader.Ensures (fun _ => True) (program.MayMeet (builder.ReadsInto context))
      (program.runWithin depth id) := by
  induction depth using Nat.strongRecOn generalizing writer reader id with
  | ind depth ih =>
    have hdata : ∀ fault, fault.ofData →
        program.MayMeet (builder.ReadsInto context) fault := fun _ h => .data h
    have hruns := hbuilt.runs hreads depth
    generalize program.runWithin depth id = x at hruns ⊢
    cases hruns with
    | endless => exact .throw (hdata _ trivial)
    | missing _ _ hid => exact .throw (.mismatch (mem_mismatches hleads hid))
    | unbranched _ _ _ _ hid => exact .throw (.mismatch (mem_mismatches hleads hid))
    | mismatch _ hid => exact .throw (.mismatch (mem_mismatches hleads hid))
    | @atom type _ =>
      cases type with
      | primitive type =>
        exact (Reader.scalar_readTerminal type).faults.mono (fun _ h => h) hdata
      | fixed size => exact (Reader.scalar_readFixed size).faults.mono (fun _ h => h) hdata
    | promotion _ => exact (Reader.ensures_promoted _).mono (fun _ _ => trivial) hdata
    | enum _ => exact (Reader.scalar_readEnum _).faults.mono (fun _ h => h) hdata
    | array hreading hless _ hitem hitemLeads =>
      obtain ⟨hwi, hri⟩ := Context.holds_of_reading hwriter hreader hreading
      have hitems := ih _ hless hitem hwi hri (hleads.trans hitemLeads)
      exact (Reader.Ensures.readArray hdata hitems).mono (fun _ _ => trivial) fun _ h => h
    | map hreading hless _ hvalue hvalueLeads =>
      obtain ⟨hwv, hrv⟩ := Context.holds_of_reading hwriter hreader hreading
      have hvalues := ih _ hless hvalue hwv hrv (hleads.trans hvalueLeads)
      exact (Reader.Ensures.readMap hdata hvalues).mono (fun _ _ => trivial) fun _ h => h
    | @records w r matching _ _ less hreading hless _ hid hmatching hwritten hdefaulted =>
      obtain ⟨hwdefines, hrdefines⟩ := Context.holds_of_reading hwriter hreader hreading
      have hwrittenParts := ensuresParts_written (fun _ _ => True)
        (program.MayMeet (builder.ReadsInto context))
        (fun field link symbol hlinked hsymbol hsymbolLeads =>
          ih less hless hsymbol (hwdefines.field (List.of_mem_zip hlinked).1).1
            (hrdefines.of_linked hmatching hlinked) (hleads.trans hsymbolLeads))
        (fun field value hlinked hvalue hvalueLeads =>
          have hfield := (hwdefines.field (List.of_mem_zip hlinked).1).1
          ih less hless hvalue hfield hfield (hleads.trans hvalueLeads))
        (Matching.length_links hmatching) hwritten
      have hdefaultedParts := ensuresParts_defaulted (fun _ _ => True)
        (program.MayMeet (builder.ReadsInto context))
        (by
          rintro field hmem _ ⟨hbytes, hvalue, hvalueLeads⟩
          have hfield := hrdefines.of_defaulted hmatching hmem
          refine .readWhole (ih less hless hvalue hfield hfield (hleads.trans hvalueLeads)) ?_
          intro value rest hrun hrest
          have htakes := (hbuilt.follows haddressable (Nat.le_refl less) hvalue hfield hfield).takes
            (haddressable.takes_default hrdefines hmatching hmem hbytes less) []
          rw [List.append_nil, hrun] at htakes
          rw [show rest = .ofList [] from htakes] at hrest
          exact absurd rfl hrest) hdefaulted
      refine (Reader.Ensures.readRecord hmatching
        (List.rel_append hwrittenParts hdefaultedParts) ?_).mono (fun _ _ => trivial) fun _ h => h
      intro field index hnames
      exact .place ⟨hrdefines, w.id, id, hid⟩ hnames
    | @select branches alternatives less hreading hless _ hlength hbranches hbranchLeads =>
      have hholds := Context.holds_of_reading hwriter hreader hreading
      refine .bind ((Reader.scalar_branchIndex _).faults.mono (fun _ h => h) hdata)
        fun index _ => ?_
      have hindex : index.val < branches.length := by
        rw [← hlength]
        exact index.isLt
      exact ih less hless (hbranches index _ _ (List.getElem?_eq_getElem hindex)
        (List.getElem?_eq_getElem index.isLt)) (hholds _ (List.getElem_mem hindex))
          hreader (hleads.trans (hbranchLeads _ (List.getElem_mem _)))
    | adjust hreading hless _ _ hkept hpick hbranch hbranchLeads _ =>
      have hholds := Context.holds_of_reading hwriter hreader hreading
      have hmem := List.fst_mem_of_mem_zipIdx (hkept.mem_of_pick hpick)
      exact .bind (ih _ hless hbranch hwriter (hholds _ hmem) (hleads.trans hbranchLeads))
        fun _ _ => .pure trivial

end Program

/-! ## Decoding -/

namespace SchemaPair

/-- The record is read into: the compilation of the pair meets it as the reader's record
of a pair of records. -/
def ReadsInto (pair : SchemaPair) (config : Config) (record : RecordNode) : Prop :=
  ∃ root builder, pair.build config = .ok (root, builder) ∧
    builder.ReadsInto (pair.context config) record

/-- The field defaults of both schemas have lengths below `maxLength`, as all that is
held in memory does. -/
def addressable (pair : SchemaPair) : Bool :=
  (Registry.ofRoot pair.writerRoot).addressable && (Registry.ofRoot pair.readerRoot).addressable

theorem addressable_context {pair : SchemaPair} (h : pair.addressable = true) (config : Config) :
    (pair.context config).Addressable := by
  rw [addressable, Bool.and_eq_true] at h
  intro side
  cases side with
  | writer => exact h.1
  | reader => exact h.2

theorem mayMeet_of_decode {pair : SchemaPair} {config : Config} {program : Program}
    (hprogram : pair.program config = .ok program) (haddressable : pair.addressable = true)
    {input rest : Input} {fault : DecodeFault}
    (hdecode : program.decode input = .error fault rest) :
    program.MayMeet (pair.ReadsInto config) fault := by
  obtain ⟨builder, hbuild, hbuilt, hreads⟩ := built hprogram
  have hmeets := (hbuilt.mayMeet (addressable_context haddressable config) _ hreads
    (pair.holds_writerRoot config) (pair.holds_readerRoot config) .refl).of_error hdecode
  exact hmeets.mono fun record hrecord => ⟨_, builder, hbuild, hrecord⟩

end SchemaPair

namespace Program

/-- Decoding with the program of two schemas, or of a schema's own grammar, never meets a
program that does not fit together.  The one exception is a field without a place, for
which a record that is read into must have two fields of one name.  A mismatch is met
only if the program lists it. -/
theorem fault_of_decode (input rest : Input) (fault : DecodeFault) :
    (∀ (pair : SchemaPair) (config : Config) (program : Program),
      pair.program config = .ok program → pair.addressable = true →
        program.decode input = .error fault rest →
          program.MayMeet (pair.ReadsInto config) fault ∧
            ∀ cause, fault = .mismatch cause →
              cause.message ∈ program.errors ∧ program.hasErrors = true) ∧
    ∀ (schema : Schema) (program : Program), Program.validating schema = .ok program →
      program.decode input = .error fault rest → fault.ofData := by
  constructor
  · intro pair config program hprogram haddressable hdecode
    have hfault := SchemaPair.mayMeet_of_decode hprogram haddressable hdecode
    exact ⟨hfault, fun cause hcause => (hcause ▸ hfault).listed⟩
  · intro schema program hprogram hdecode
    obtain ⟨builder, hvalidated⟩ := Program.validated hprogram
    have hrun := hvalidated.run_eq schema.registry_ownContext
      (program.runDepth input.length) hvalidated.root
    rw [decode, hrun] at hdecode
    exact (Registry.ensures_plain _ _ _).of_error hdecode

/-- A record of which two fields have one name. -/
def twins : Schema :=
  .record ⟨"Twins", none, []⟩
    [⟨"left", .primitive .int, none, []⟩, ⟨"left", .primitive .int, none, []⟩]

/-- Of twins read as twins the first lacks a place, in their own grammar neither does. -/
theorem fault_of_decode_twins :
    (∃ program fault rest, (SchemaPair.oneTree twins).program {} = .ok program ∧
      program.decode (.ofList [2, 4]) = .error fault rest ∧
        program.MayMeet ((SchemaPair.oneTree twins).ReadsInto {}) fault) ∧
    ∃ program fault rest, Program.validating twins = .ok program ∧
      program.decode (.ofList [2]) = .error fault rest ∧ fault.ofData := by
  constructor
  · obtain ⟨program, hprogram, h⟩ := Reader.exists_ok ((SchemaPair.oneTree twins).program {})
      (fun program => !Reader.isValue (program.decode (.ofList [2, 4]))) (by decide +kernel)
    obtain ⟨fault, rest, hdecode⟩ := Reader.exists_fault (Bool.not_eq_true' _ ▸ h)
    exact ⟨program, fault, rest, hprogram, hdecode,
      ((fault_of_decode _ rest fault).1 _ {} program hprogram (by decide +kernel) hdecode).1⟩
  · obtain ⟨program, hprogram, h⟩ := Reader.exists_ok (Program.validating twins)
      (fun program => !Reader.isValue (program.decode (.ofList [2]))) (by decide +kernel)
    obtain ⟨fault, rest, hdecode⟩ := Reader.exists_fault (Bool.not_eq_true' _ ▸ h)
    exact ⟨program, fault, rest, hprogram, hdecode,
      (fault_of_decode _ rest fault).2 twins program hprogram hdecode⟩

end Program

namespace SharedTree

/-- Data of a part are read as the order that the part belongs to.  A label has a code,
which has two bytes among the names of the order.  The part by itself knows no code but
the check of its label, which has one. -/
def orders : SharedTree :=
  ⟨.record ⟨"Order", none, []⟩
      [⟨"code", .fixed ⟨"Code", none, []⟩ 2, some (.string "xx"), []⟩,
        ⟨"part", .record ⟨"Part", none, []⟩
            [⟨"label", .record ⟨"Label", none, []⟩
                [⟨"code", .reference "Code", none, []⟩,
                  ⟨"check", .fixed ⟨"Code", some "short", []⟩ 1, none, []⟩], none, []⟩],
          some (.object [("label", .object [("check", .string "c"), ("code", .string "ab")])]),
          []⟩],
    ⟨2, by decide +kernel⟩, ⟨0, by decide +kernel⟩⟩

/-- The two schemas of `fault_of_decode` must not be parts of one tree, where a record is remembered
for both sides.  The label of the data is skipped and so compiled with the names of the part.  It
then reads the default of the order's part as well, where a code has a byte more.  That byte is
left over, which is none of the faults that a program may meet. -/
theorem decode_leftover :
    ∃ program inject rest, orders.program {} = .ok program ∧
      program.decode (.ofList [1, 2]) = .error (.program (.leftoverDefault 1 inject)) rest ∧
        ∀ readInto, ¬program.MayMeet readInto (.program (.leftoverDefault 1 inject)) := by
  obtain ⟨program, hprogram, hfault⟩ := Reader.exists_ok (orders.program {})
    (fun program => match program.decode (.ofList [1, 2]) with
      | .error (.program (.leftoverDefault 1 _)) _ => true
      | _ => false) (by decide +kernel)
  split at hfault
  · rename_i inject rest hdecode
    refine ⟨program, inject, rest, hprogram, hdecode, ?_⟩
    rintro readInto (hdata | _ | _)
    exact hdata
  · cases hfault

end SharedTree

end AvroResolution
