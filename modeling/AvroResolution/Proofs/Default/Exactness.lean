import AvroResolution.Proofs.Default.Completeness
import AvroResolution.Proofs.Default.Revision
import AvroResolution.Proofs.Resolution.RoundTrip

/-!
# Defaults are encoded exactly

`Schema.encodeDefault_exact` is the result: an encoded literal is read back as the value that it
denotes, and a literal that has no encoding denotes nothing.
-/

namespace AvroResolution

namespace Schema

/-- The literal denotes the value as one of the schema, whose names are its own. -/
def Denotes (schema : Schema) (literal : Literal) (value : Value) : Prop :=
  (Registry.ofRoot (.root .writer schema)).Denotes (.root .writer schema) literal value

/-- To write the literal as one of the schema takes the part to be written: the literal itself, or
a default that it leaves to be expanded, or what stands inside of these. -/
def Takes (schema : Schema) (literal part : Literal) : Prop :=
  ∃ node, Relation.ReflTransGen (Registry.ofRoot (.root .writer schema)).Involves
    (.root .writer schema, literal) (node, part)

/-- The names of a schema may be those of the writer's tree. -/
theorem encodeDefault_eq (schema : Schema) (literal : Literal) :
    schema.encodeDefault schema literal =
      AvroResolution.encodeDefault (.ofRoot (.root .writer schema)) (.root .writer schema)
        literal := by
  have hside := encodeDefault_onSide (.ofRoot (.root .reader schema)) (.root .reader schema) .writer
    literal
  rw [← Registry.ofRoot_onSide] at hside
  exact hside.symm

/-- The encoding of a literal is what a writer of the schema writes: the program of the schema's own
grammar reads it back as the one value that the literal denotes, and leaves what stands behind it.
No array that is written may have more than `zeroWidthLimit` elements; what is besides asked for
holds of all that is parsed and held in memory.  Where names tell the fields of the schema apart, a
literal that has no encoding denotes no value. -/
theorem encodeDefault_exact (schema : Schema) (literal : Literal) :
    (∀ bytes, schema.encodeDefault schema literal = .ok bytes →
      (Node.root .writer schema).everyShape Shape.ordinalsFit = true →
        (∀ part, schema.Takes literal part → part.bounded = true) →
          ∃ value, (∀ other, schema.Denotes literal other ↔ other = value) ∧
            ∀ program, Program.validating schema = .ok program → ∀ rest,
              program.decode (.ofList (bytes ++ rest)) = .ok value (.ofList rest)) ∧
    ((Node.root .writer schema).NamesApart → ∀ fault,
      schema.encodeDefault schema literal = .error fault → ∀ value,
        ¬schema.Denotes literal value) := by
  have hroot : Node.root .writer schema ∈ (Node.root .writer schema).preorder :=
    Node.self_mem_preorder _
  rw [encodeDefault_eq]
  constructor
  · intro bytes hbytes hfits hbounded
    obtain ⟨value, hdenotes, hrepresents⟩ :=
      (Registry.writes_of_encodeDefault hbytes).denotes_of_bounded hfits hroot
        fun place hplace => hbounded place.2 ⟨place.1, hplace⟩
    refine ⟨value, fun other => ⟨fun hother => hother.unique hdenotes, ?_⟩, ?_⟩
    · rintro rfl
      exact hdenotes
    · intro program hprogram rest
      obtain ⟨builder, hvalidated⟩ := Program.validated hprogram
      exact (hvalidated.decode_eq_iff Reader.not_givesUp_ok).2
        ⟨sizeOf value + 1, hrepresents.yields (Nat.lt_succ_self _) rest⟩
  · intro hapart fault hfault value hdenotes
    obtain ⟨bytes, hbytes⟩ := encodeDefault_of_denotes hapart hroot hdenotes
    rw [hfault] at hbytes
    cases hbytes

/-- A tree whose fields all have defaults, and that may have branches. -/
def tree : Schema :=
  .record ⟨"Tree", none, []⟩
    [⟨"mark", .fixed ⟨"Mark", none, []⟩ 2, some (.string "é"), []⟩,
      ⟨"grown", .logical (.primitive .int) .date, some (.integer 1), []⟩,
      ⟨"below", .array (.reference "Tree"), some (.array []), []⟩,
      ⟨"next", .union [.primitive .null, .reference "Tree"], some .null, []⟩]

/-- A tree with a branch, of which nothing else is given. -/
def branching : Literal :=
  .object [("below", .array [.object []])]

/-- The bytes of the tree: its mark, which is filled up, the day, the block of its branch and what
is next. -/
def branchingBytes : List UInt8 :=
  [0xE9, 0, 2, 2, 0xE9, 0, 2, 0, 0, 0, 0]

/-- A record that is filled with itself. -/
def loop : Schema :=
  .record ⟨"Loop", none, []⟩ [⟨"next", .reference "Loop", some (.object []), []⟩]

theorem encodeDefault_exact_tree :
    (tree.encodeDefault tree branching = .ok branchingBytes ∧
      ∃ value, (∀ other, tree.Denotes branching other ↔ other = value) ∧
        ∃ program, Program.validating tree = .ok program ∧
          program.decode (.ofList (branchingBytes ++ [7])) = .ok value (.ofList [7])) ∧
    (∃ fault, loop.encodeDefault loop (.object []) = .error fault) ∧
      ∀ value, ¬loop.Denotes (.object []) value := by
  obtain ⟨bytes, hbytes, hsame⟩ := Reader.exists_ok (tree.encodeDefault tree branching)
    (· == branchingBytes) (by decide +kernel)
  rw [eq_of_beq hsame] at hbytes
  obtain ⟨program, hprogram, -⟩ := Reader.exists_ok (Program.validating tree) (fun _ => true)
    (by decide +kernel)
  have hbounded : ∀ part, tree.Takes branching part → part.bounded = true := by
    rintro part ⟨node, hplace⟩
    exact Registry.bounded_of_involves (by decide +kernel) (by decide +kernel)
      (Node.self_mem_preorder _) (by decide +kernel) (by decide +kernel) hplace
  obtain ⟨value, hvalue, hdecode⟩ :=
    (encodeDefault_exact tree branching).1 branchingBytes hbytes (by decide +kernel) hbounded
  obtain ⟨fault, hloop⟩ : ∃ fault, loop.encodeDefault loop (.object []) = .error fault := by
    have hnone : (loop.encodeDefault loop (.object [])).toOption = none :=
      Option.isNone_iff_eq_none.1 (by decide +kernel)
    cases h : loop.encodeDefault loop (.object []) with
    | error fault => exact ⟨fault, rfl⟩
    | ok bytes =>
      rw [h] at hnone
      cases hnone
  exact ⟨⟨hbytes, value, hvalue, program, hprogram, hdecode program hprogram [7]⟩,
    ⟨fault, hloop⟩, (encodeDefault_exact loop (.object [])).2 (by decide +kernel) fault hloop⟩

end Schema

end AvroResolution
