import AvroResolution.Compilation.Resolving
import AvroResolution.Program.Reachable

/-!
# Compatibility

`SchemaPair.check` says whether data of a pair's writer can be read as its
reader: when the program of the pair reaches no mismatch.  Compiling the pair is
enough to find out; no data is needed.
-/

namespace AvroResolution

/-- The mismatches that reading may meet. -/
structure Compatibility where
  mismatches : List Mismatch

namespace Compatibility

/-- The mismatches that a program reaches. -/
def ofProgram (program : Program) : Compatibility := ⟨program.mismatches⟩

def isCompatible (result : Compatibility) : Bool :=
  result.mismatches.isEmpty

/-- The messages of the mismatches. -/
def errors (result : Compatibility) : List String :=
  result.mismatches.map Mismatch.message

/-- All mismatches as one fault, if there are any. -/
def fault? (result : Compatibility) : Option SchemaFault :=
  if result.isCompatible then none else some (.incompatible result.mismatches)

end Compatibility

namespace SchemaPair

/-- Whether data of the pair's writer can be read as its reader, unless the pair
has no program. -/
def check (pair : SchemaPair) (config : Config) : Except SchemaFault Compatibility :=
  (pair.program config).map Compatibility.ofProgram

/-- Why a pair is refused under the default settings, if it is. -/
def refusal? (pair : SchemaPair) : Option SchemaFault :=
  match pair.check {} with
  | .error fault => some fault
  | .ok result => result.fault?

end SchemaPair

end AvroResolution
