import AvroResolution.Proofs.Resolution.Apart
import AvroResolution.Proofs.Resolution.Skimming

/-!
# Defaults of the writer

Resolution has no use for the defaults of the writer's fields.  A compilation still gets to
them, because it compiles data that is dropped as data that is read as its own type, and then
compares the records of a union with each other.

* `Program.resolving_of_undefaulted_eq`: where no field of the writer's tree is filled on the
  way, writers that differ in their defaults have one program, or have none for the same
  reason.  Two values that are decoded from the same bytes are always the same.
* `Dropped.resolving_ne_undefaulted` is a writer with a program that another default takes
  away.
-/

namespace AvroResolution

/-! ## Skimming without the defaults of the writer -/

theorem Revision.keepsReader_undefaulting : undefaulting.KeepsReader where
  side := side_undefaulting
  node node hside := by simp only [undefaulting, hside]
  default? field hside := by simp only [undefaulting, hside]

namespace Context

variable {config : Config} {writer reader : Schema}

theorem skimWithin_undefaulted (config : Config) (writer reader : Schema) (depth : Nat) :
    (ofTrees config writer.undefaulted reader).skimWithin depth (.root .writer writer.undefaulted)
        (.root .reader reader) =
      (ofTrees config writer reader).skimWithin depth (.root .writer writer)
        (.root .reader reader) :=
  (revises_undefaulting config writer reader).skimWithin Revision.keepsReader_undefaulting rfl depth
    ((SchemaPair.twoTrees writer reader).holds_writerRoot config)
    ((SchemaPair.twoTrees writer reader).holds_readerRoot config)

/-- Skimming gives at most one value. -/
theorem skimWithin_unique {context : Context} {first second : Node} {input rest rest' : Input}
    {value value' : Value} {depth depth' : Nat}
    (h : context.skimWithin depth first second input = .ok value rest)
    (h' : context.skimWithin depth' first second input = .ok value' rest') :
    value' = value ∧ rest' = rest := by
  have hmore := (context.skimWithin_mono (Nat.le_max_left depth depth') first second).eq
    (h ▸ Reader.not_givesUp_ok)
  have hmore' := (context.skimWithin_mono (Nat.le_max_right depth depth') first second).eq
    (h' ▸ Reader.not_givesUp_ok)
  cases h'.symm.trans (hmore'.symm.trans (hmore.trans h))
  exact ⟨rfl, rfl⟩

end Context

/-! ## Programs -/

namespace Program

variable {config : Config} {writer other reader : Schema}

/-- What a program decodes is what skimming reads without the defaults of the writer. -/
theorem skims_undefaulted {program : Program}
    (hprogram : Program.resolving config writer reader = .ok program)
    (haddressable : (SchemaPair.twoTrees writer reader).addressable = true)
    {input rest : Input} {value : Value} (hdecode : program.decode input = .ok value rest) :
    ∃ depth, (Context.ofTrees config writer.undefaulted reader).skimWithin depth
      (.root .writer writer.undefaulted) (.root .reader reader) input = .ok value rest := by
  let pair := SchemaPair.twoTrees writer reader
  obtain ⟨builder, _, hbuilt, hreads⟩ :=
    SchemaPair.built (show pair.program config = .ok program from hprogram)
  have hskims := hbuilt.simulates_skim (SchemaPair.addressable_context haddressable config)
    (Nat.le_refl (program.runDepth input.length)) hreads (pair.holds_writerRoot config)
    (pair.holds_readerRoot config) rfl
  obtain ⟨_, found, hfound, rfl⟩ := hskims.of_ok trivial hdecode
  refine ⟨program.runDepth input.length, ?_⟩
  rw [Context.skimWithin_undefaulted]
  exact hfound

/-- Writers that differ in the defaults of their fields only have one program, or have none for
the same reason, if without the defaults no field of the writer's tree is filled.  Whether or
not one is, the values that the two decode from the same bytes are the same, and so are the
bytes that they leave. -/
theorem resolving_of_undefaulted_eq (hsame : writer.undefaulted = other.undefaulted) :
    ((Context.ofTrees config writer.undefaulted reader).FillsReaderOnly
        (.root .writer writer.undefaulted, .root .reader reader) →
      Program.resolving config writer reader = Program.resolving config other reader) ∧
    ∀ program program', Program.resolving config writer reader = .ok program →
      Program.resolving config other reader = .ok program' →
        (SchemaPair.twoTrees writer reader).addressable = true →
          (SchemaPair.twoTrees other reader).addressable = true →
            ∀ input value value' rest rest', program.decode input = .ok value rest →
              program'.decode input = .ok value' rest' → value' = value ∧ rest' = rest := by
  constructor
  · intro hfills
    have hwriter := Program.resolving_undefaulted hfills
    rw [hsame] at hfills hwriter
    exact hwriter.symm.trans (Program.resolving_undefaulted hfills)
  · intro program program' hprogram hprogram' haddressable haddressable' input value value' rest
      rest' hdecode hdecode'
    obtain ⟨depth, hskim⟩ := skims_undefaulted hprogram haddressable hdecode
    obtain ⟨depth', hskim'⟩ := skims_undefaulted hprogram' haddressable' hdecode'
    rw [← hsame] at hskim'
    exact Context.skimWithin_unique hskim hskim'

end Program

/-! ## A default that is met -/

namespace Dropped

/-- A record `R` whose field is a record `A` or something else. -/
def writer (otherwise : Schema) (default? : Option Literal) : Schema :=
  .record ⟨"R", none, []⟩
    [⟨"x", .union [.record ⟨"A", none, []⟩ [⟨"f", .primitive .int, default?, []⟩], otherwise],
      none, []⟩]

/-- A record `R` without fields. -/
def reader : Schema := .record ⟨"R", none, []⟩ []

/-- A record `B` without fields. -/
def empty : Schema := .record ⟨"B", none, []⟩ []

theorem undefaulted_writer (otherwise : Schema) (default? : Option Literal) :
    (writer otherwise default?).undefaulted = (writer otherwise none).undefaulted :=
  rfl

/-- A default that does not fit its field is no harm beside a null.  Beside another record, the
programs with and without a default that fits decode the same. -/
theorem resolving_of_undefaulted_eq_dropped :
    (∃ program, Program.resolving {} (writer (.primitive .null) (some (.string "bad"))) reader =
        .ok program ∧ Program.resolving {} (writer (.primitive .null) none) reader = .ok program) ∧
      ∃ program program' value rest,
        Program.resolving {} (writer empty (some (.integer 1))) reader = .ok program ∧
          Program.resolving {} (writer empty none) reader = .ok program' ∧
            program.decode (.ofList [2]) = .ok value rest ∧
              program'.decode (.ofList [2]) = .ok value rest := by
  constructor
  · have hapart : (writer (.primitive .null) none).apart = true := by decide +kernel
    have hsame : Program.resolving {} (writer (.primitive .null) (some (.string "bad"))) reader =
        Program.resolving {} (writer (.primitive .null) none) reader :=
      (Program.resolving_of_undefaulted_eq (undefaulted_writer _ _)).1
        (Context.fillsReaderOnly_of_apart hapart)
    obtain ⟨program, hprogram, -⟩ :=
      Reader.exists_ok (Program.resolving {} (writer (.primitive .null) none) reader)
        (fun _ => true) (by decide +kernel)
    exact ⟨program, hsame.trans hprogram, hprogram⟩
  · obtain ⟨program, hprogram, hvalue⟩ :=
      Reader.exists_ok (Program.resolving {} (writer empty (some (.integer 1))) reader)
        (fun program => Reader.isValue (program.decode (.ofList [2]))) (by decide +kernel)
    obtain ⟨program', hprogram', hvalue'⟩ :=
      Reader.exists_ok (Program.resolving {} (writer empty none) reader)
        (fun program => Reader.isValue (program.decode (.ofList [2]))) (by decide +kernel)
    obtain ⟨value, rest, hdecode⟩ := Reader.exists_value hvalue
    obtain ⟨value', rest', hdecode'⟩ := Reader.exists_value hvalue'
    obtain ⟨rfl, rfl⟩ := (Program.resolving_of_undefaulted_eq (undefaulted_writer _ _)).2 program
      program' hprogram hprogram' (by decide +kernel) (by decide +kernel) _ _ _ _ _ hdecode hdecode'
    exact ⟨program, program', _, _, hprogram, hprogram', hdecode, hdecode'⟩

/-- With a default that does not fit its field the writer has no program.  The program of the
writer without it drops the field and decodes all data. -/
theorem resolving_ne_undefaulted :
    (∃ source, Program.resolving {} (writer empty (some (.string "bad"))) reader =
      .error (.invalidDefault "f" source)) ∧
    ∃ program, Program.resolving {} (writer empty none) reader = .ok program ∧
      (∃ value rest, program.decode (.ofList [0, 2]) = .ok value rest) ∧
        ∃ value rest, program.decode (.ofList [2]) = .ok value rest := by
  constructor
  · obtain ⟨fault, hfault, hfield⟩ :=
      Reader.exists_error (Program.resolving {} (writer empty (some (.string "bad"))) reader)
        (fun fault => match fault with
          | .invalidDefault field _ => field = "f"
          | _ => false) (by decide +kernel)
    cases fault with
    | invalidDefault field source =>
      obtain rfl : field = "f" := of_decide_eq_true hfield
      exact ⟨source, hfault⟩
    | _ => cases hfield
  · obtain ⟨program, hprogram, h⟩ :=
      Reader.exists_ok (Program.resolving {} (writer empty none) reader) (fun program =>
        Reader.isValue (program.decode (.ofList [0, 2])) &&
          Reader.isValue (program.decode (.ofList [2]))) (by decide +kernel)
    rw [Bool.and_eq_true] at h
    exact ⟨program, hprogram, Reader.exists_value h.1, Reader.exists_value h.2⟩

end Dropped

end AvroResolution
