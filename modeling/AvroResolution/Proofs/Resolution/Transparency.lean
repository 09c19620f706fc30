import AvroResolution.Proofs.Decoding.Counterparts
import AvroResolution.Proofs.Resolution.Revision

/-!
# Logical types do not matter

A program takes no notice of logical types.

* `Program.decode_mapTypes`: what a program reads does not depend on the types of its
  defaults, of which it runs the bytes only.
* `SchemaPair.program_bare`: without their logical types two trees have the program that they
  have with them, up to the types of its defaults, and the same fault if they have none.
-/

namespace AvroResolution

/-! ## Running a program with other types of its defaults -/

namespace Program

theorem counterpart_mapTypes (f : Schema → Schema) (program : Program) :
    Counterpart (fun _ => Eq) (program.mapTypes f) program := by
  rw [Counterpart, mapTypes, Array.toList_map, List.forall₂_map_left_iff]
  refine List.forall₂_same.2 fun symbol _ => ?_
  cases symbol with
  | inject type bytes => exact .inject (f type) type bytes
  | _ => exact .same _

/-- A program reads the same whatever the types of its defaults are. -/
theorem decode_mapTypes (f : Schema → Schema) (program : Program) :
    (program.mapTypes f).decode = program.decode := by
  have hsame := program.counterpart_mapTypes f
  funext input
  rw [decode, decode, hsame.runDepth_eq, hsame.runWithin .eq]
  rfl

end Program

/-! ## Trees without logical types -/

namespace SchemaPair

/-- Logical types do not matter.  Two trees without their logical types have the program that
they have with them, but that the types of its defaults are without theirs, or have none for
the same reason.  What reads data of a schema as values of that schema is the same as it was,
and so is what a program reads. -/
theorem program_bare (config : Config) :
    (∀ pair : SchemaPair, (pair.mapSchema Schema.bare).program config =
      (pair.program config).map (Program.mapTypes Schema.bare)) ∧
    (∀ schema : Schema, Program.validating schema.bare = Program.validating schema) ∧
    ∀ program : Program, (program.mapTypes Schema.bare).decode = program.decode :=
  ⟨fun pair => program_mapSchema Schema.revises_bare pair config,
    Schema.validating_mapSchema Schema.revises_bare,
    Program.decode_mapTypes Schema.bare⟩

end SchemaPair

end AvroResolution
