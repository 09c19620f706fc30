import AvroResolution.Default.Fault
import AvroResolution.Program

/-!
# Why there is no program

A pair of schemas that do not fit still has a program, with a mismatch in it.  A
`SchemaFault` says why there is none at all, or why a program with mismatches
was refused.
-/

namespace AvroResolution

/-- A compiler that broke its own promises. -/
inductive InternalFault where
  /-- A symbol that was reserved and never filled. -/
  | unfilledSymbol (symbol : SymbolId)
  /-- Deeper recursion than the schemas allow. -/
  | tooDeep

def InternalFault.message : InternalFault → String
  | .unfilledSymbol symbol =>
    "symbol #" ++ integerText symbol ++ " was reserved but never filled"
  | .tooDeep => "the schemas nest too deeply"

/-- What keeps a pair of schemas from having a usable program. -/
inductive SchemaFault where
  | danglingReference (name : String)
  /-- The mismatches of a program that was refused for them. -/
  | incompatible (causes : List Mismatch)
  | invalidDefault (field : String) (source : EncodeFault)
  | internal (fault : InternalFault)

def SchemaFault.message : SchemaFault → String
  | .danglingReference name => "Invalid schema: Unresolved named type reference: " ++ name
  | .incompatible causes =>
    "Incompatible schemas: " ++ String.intercalate "; " (causes.map Mismatch.message)
  | .invalidDefault field source =>
    "Invalid default for field '" ++ field ++ "': " ++ source.message
  | .internal fault => "Internal error: " ++ fault.message

end AvroResolution
