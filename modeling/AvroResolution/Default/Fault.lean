import AvroResolution.Literal.Text
import AvroResolution.Text.Quoted
import AvroResolution.Schema

/-!
# Why a default has no encoding

An `EncodeFault` says why a literal cannot be written as a value of a type.
-/

namespace AvroResolution

/-- What keeps a literal from being written. -/
inductive EncodeFault where
  /-- A literal of another kind than the type. -/
  | wrongKind (kind : Kind) (literal : Literal)
  /-- A literal that is no number, or no integer, for a numeric type. -/
  | notNumeric (type : Primitive) (literal : Literal)
  | emptyUnion
  /-- A character that stands for no byte. -/
  | notLatin1 (kind : Kind) (character : Char)
  /-- A field that the literal omits and that has no default of its own. -/
  | missingDefault (field : String)
  | unknownSymbol (enum symbol : String)
  | outOfRange (value : Int) (type : Primitive)
  | unresolvedName (name : String)
  /-- A default that needs itself. -/
  | recursiveDefault (field : String)

def EncodeFault.message : EncodeFault → String
  | .wrongKind kind literal =>
    "Type mismatch: Non-" ++ kind.name ++ " default value for " ++ kind.name ++ ": " ++
      literal.text
  | .notNumeric type literal =>
    "Type mismatch: Non-numeric default value for " ++ type.name ++ ": " ++ literal.text
  | .emptyUnion => "Type mismatch: default for an empty union"
  | .notLatin1 kind character =>
    "Type mismatch: " ++ kind.name ++ " default contains a character outside ISO-8859-1: '" ++
      quotedChar '\'' character ++ "'"
  | .missingDefault field => "No default value for: " ++ field
  | .unknownSymbol enum symbol =>
    "Unknown enum symbol '" ++ symbol ++ "' for enum '" ++ enum ++ "'"
  | .outOfRange value type =>
    "Value " ++ integerText value ++ " out of range for " ++ type.name
  | .unresolvedName name => "Unresolved named type reference: '" ++ name ++ "'"
  | .recursiveDefault field => "Default for field '" ++ field ++ "' refers to itself"

end AvroResolution
