import AvroResolution.Proofs.Decoding.Depth
import AvroResolution.Proofs.Resolution.Conformance
import AvroResolution.Proofs.Resolution.Safety

/-!
# Resolution and the writer's own grammar take the same bytes

A program that reads a writer's data as another schema takes the bytes that the
writer's own grammar takes (`SchemaPair.decode_takes_own`).  It may refuse a datum that
the grammar accepts, but it never finds its bytes malformed.  Two parts of one tree may
take different bytes (`SharedTree.decode_leaves_own`).
-/

namespace AvroResolution

/-- A datum whose bytes are well formed is refused. -/
def DecodeFault.ofDatum : DecodeFault → Prop
  | .data _ => True
  | .program _ => True
  | .unmappedOrdinal _ => True
  | _ => False

namespace Program

/-- The program of a schema's own grammar decodes what the schema's reader reads at some
depth. -/
theorem Validated.decode_eq_iff {schema : Schema} {program : Program} {builder : Builder}
    (hvalidated : program.Validated schema.ownContext (.root .writer schema) builder)
    {input : Input} {answer : EStateM.Result DecodeFault Input Value}
    (hanswer : ¬Reader.GivesUp answer) :
    program.decode input = answer ↔
      ∃ depth, (Registry.ofRoot (.root .writer schema)).plainWithin depth
        (.root .writer schema) input = answer := by
  rw [Program.decode_eq_iff hanswer]
  refine exists_congr fun depth => ?_
  rw [hvalidated.run_eq schema.registry_ownContext depth hvalidated.root]

end Program

namespace SchemaPair

variable {pair : SchemaPair} {config : Config} {program own : Program}

/-- A run of the program takes what reading data of the writer's schema takes. -/
theorem follows_plain (hprogram : pair.program config = .ok program)
    (haddressable : pair.addressable = true) {depth more : Nat} (hle : depth ≤ more) :
    Reader.Follows (program.runWithin depth program.root)
      ((Registry.ofRoot pair.writerRoot).plainWithin more pair.writerRoot) := by
  obtain ⟨builder, _, hbuilt, hreads⟩ := built hprogram
  exact hbuilt.follows (addressable_context haddressable config) hle hreads
    (pair.holds_writerRoot config) (pair.holds_readerRoot config)

theorem own_decode_of_decode (hprogram : pair.program config = .ok program)
    (hown : Program.validating pair.writer = .ok own) (haddressable : pair.addressable = true)
    {input rest : Input} {value : Value} (hdecode : program.decode input = .ok value rest) :
    ∃ other, own.decode input = .ok other rest := by
  obtain ⟨builder, hvalidated⟩ := Program.validated hown
  obtain ⟨_, other, hplain, _⟩ := Reader.Simulates.of_ok
    (follows_plain hprogram haddressable (Nat.le_refl (program.runDepth input.length))) trivial
    hdecode
  exact ⟨other, (hvalidated.decode_eq_iff Reader.not_givesUp_ok).2 ⟨_, hplain⟩⟩

/-- Bytes that the writer's own grammar accepts are not malformed. -/
theorem not_ofWire_of_own_decode (hprogram : pair.program config = .ok program)
    (hown : Program.validating pair.writer = .ok own) (haddressable : pair.addressable = true)
    {input rest rest' : Input} {other : Value} {fault : DecodeFault}
    (hother : own.decode input = .ok other rest)
    (hdecode : program.decode input = .error fault rest') :
    ¬fault.ofWire := by
  intro hwire
  obtain ⟨builder, hvalidated⟩ := Program.validated hown
  obtain ⟨depth, hplain⟩ := (hvalidated.decode_eq_iff Reader.not_givesUp_ok).1 hother
  have hfault := Reader.Simulates.of_error
    (follows_plain hprogram haddressable (Nat.le_max_right depth (program.runDepth input.length)))
    trivial hdecode hwire
  have hvalue := (Registry.plainWithin_mono (Registry.ofRoot pair.writerRoot)
    (Nat.le_max_left depth (program.runDepth input.length)) pair.writerRoot).eq
    (hplain ▸ Reader.not_givesUp_ok)
  rw [hfault] at hvalue
  exact nomatch hvalue.trans hplain

/-- Where the program of a pair decodes a value, the writer's own grammar decodes one too
and leaves the same bytes.  Where the grammar decodes a value and the program has no
errors, the program decodes one and leaves the same bytes, refuses the datum, or never
answers. -/
theorem decode_takes_own (hprogram : pair.program config = .ok program)
    (hown : Program.validating pair.writer = .ok own) (haddressable : pair.addressable = true)
    (input : Input) :
    (∀ value rest, program.decode input = .ok value rest →
      ∃ other, own.decode input = .ok other rest) ∧
    (program.hasErrors = false → ∀ other rest, own.decode input = .ok other rest →
      match program.decode input with
      | .ok _ rest' => rest' = rest
      | .error fault _ => fault = .endless ∨ fault.ofDatum) := by
  constructor
  · intro value rest hdecode
    exact own_decode_of_decode hprogram hown haddressable hdecode
  · intro herrors other rest hother
    cases hdecode : program.decode input with
    | ok value rest' =>
      obtain ⟨other', hother'⟩ := own_decode_of_decode hprogram hown haddressable hdecode
      rw [hother] at hother'
      cases hother'
      rfl
    | error fault rest' =>
      have hwire := not_ofWire_of_own_decode hprogram hown haddressable hother hdecode
      cases mayMeet_of_decode hprogram haddressable hdecode with
      | data hdata =>
        cases fault with
        | endless => exact .inl rfl
        | data _ => exact .inr trivial
        | unmappedOrdinal _ => exact .inr trivial
        | program _ => exact .inr trivial
        | unpromotable _ _ => exact absurd hdata id
        | mismatch _ => exact absurd hdata id
        | _ => exact absurd trivial hwire
      | place => exact .inr trivial
      | mismatch hcause =>
        have hlisted := Program.hasErrors_iff.2 (List.ne_nil_of_mem hcause)
        rw [herrors] at hlisted
        cases hlisted

/-- An account of the old version is read by both programs up to its end. -/
theorem decode_takes_own_accounts :
    ∃ program own value rest other, accounts.program {} = .ok program ∧
      Program.validating accounts.writer = .ok own ∧
      program.decode (.ofList [2, 2, 97, 2, 2, 98]) = .ok value rest ∧
      own.decode (.ofList [2, 2, 97, 2, 2, 98]) = .ok other rest := by
  obtain ⟨program, hprogram, h⟩ := Reader.exists_ok (accounts.program {})
    (fun program => Reader.isValue (program.decode (.ofList [2, 2, 97, 2, 2, 98])))
    (by decide +kernel)
  obtain ⟨value, rest, hdecode⟩ := Reader.exists_value h
  obtain ⟨own, hown, _⟩ := Reader.exists_ok (Program.validating accounts.writer)
    (fun _ => true) (by decide +kernel)
  obtain ⟨other, hother⟩ :=
    (decode_takes_own hprogram hown (by decide +kernel) _).1 value rest hdecode
  exact ⟨program, own, value, rest, other, hprogram, hown, hdecode, hother⟩

end SchemaPair

namespace SharedTree

/-- Data of an order are read as one of its parts.  The item of the part has a label,
which is filled from a default.  Its code has two bytes among the names of the order.
The part by itself knows no code but the check of the label, which has one. -/
def labelledOrders : SharedTree :=
  ⟨.record ⟨"Order", none, []⟩
      [⟨"item", .record ⟨"Item", none, []⟩ [], none, []⟩,
        ⟨"code", .fixed ⟨"Code", none, []⟩ 2, none, []⟩,
        ⟨"part", .record ⟨"Part", none, []⟩
            [⟨"item", .record ⟨"Item", some "labelled", []⟩
                [⟨"label", .record ⟨"Label", none, []⟩
                    [⟨"code", .reference "Code", none, []⟩,
                      ⟨"check", .fixed ⟨"Code", some "short", []⟩ 1, none, []⟩],
                  some (.object [("check", .string "c"), ("code", .string "a")]), []⟩], none, []⟩],
          none, []⟩],
    ⟨0, by decide +kernel⟩, ⟨3, by decide +kernel⟩⟩

/-- Where the schemas of `decode_takes_own` are parts of one tree, the program may take fewer bytes
than the grammar of the writer.  The label is compiled for the default, with the names of the part,
and then skips the label of the order, where a code has a byte more. -/
theorem decode_leaves_own :
    ∃ program own value other, labelledOrders.program {} = .ok program ∧
      Program.validating labelledOrders.writerRoot.schema = .ok own ∧
        program.decode (.ofList [1, 2, 3, 4, 5]) = .ok value (.ofList [5]) ∧
          own.decode (.ofList [1, 2, 3, 4, 5]) = .ok other (.ofList []) := by
  obtain ⟨program, hprogram, h⟩ := Reader.exists_ok (labelledOrders.program {})
    (fun program => Reader.isValueWith (fun _ rest => rest.bytes == [5])
      (program.decode (.ofList [1, 2, 3, 4, 5]))) (by decide +kernel)
  obtain ⟨value, rest, hdecode, hrest⟩ := Reader.exists_valueWith h
  obtain rfl : rest = .ofList [5] := Input.ext (eq_of_beq hrest)
  obtain ⟨own, hown, h'⟩ := Reader.exists_ok
    (Program.validating labelledOrders.writerRoot.schema)
    (fun own => Reader.isValueWith (fun _ rest => rest.bytes == [])
      (own.decode (.ofList [1, 2, 3, 4, 5]))) (by decide +kernel)
  obtain ⟨other, rest, hother, hrest⟩ := Reader.exists_valueWith h'
  obtain rfl : rest = .ofList [] := Input.ext (eq_of_beq hrest)
  exact ⟨program, own, value, other, hprogram, hown, hdecode, hother⟩

end SharedTree

end AvroResolution
