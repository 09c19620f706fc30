import AvroResolution.Program
import AvroResolution.Value.Text
import AvroResolution.Wire.Utf8

/-!
# Why decoding fails

A `DecodeFault` says what stopped a read.  The data may be malformed
(`DataFault`) or end too soon, the program may have a mismatch on the path that
the data takes, or the program itself may be malformed (`ProgramFault`), which
no compiled program is.
-/

namespace AvroResolution

/-- Data that no writer of the schema produces. -/
inductive DataFault where
  | boolean (byte : UInt8)
  | intOverflow (value : Int64)
  | negativeLength (length : Int64)
  | branchIndex (index : Int64) (count : Nat)
  | negativeOrdinal (ordinal : Int32)
  /-- Promoted bytes that are not a string. -/
  | notText (fault : Utf8Fault)
  /-- More items without bytes than an array may have. -/
  | zeroWidthItems (limit : Nat)

def DataFault.message : DataFault → String
  | .boolean byte => "Invalid boolean value: " ++ integerText byte.toNat ++ ", expected 0 or 1"
  | .intOverflow value =>
    "Integer overflow: " ++ integerText value.toInt ++ " does not fit in i32"
  | .negativeLength length => "Negative bytes length: " ++ integerText length.toInt
  | .branchIndex index count =>
    "Union index " ++ integerText index.toInt ++ " out of range (0.." ++ integerText count ++ ")"
  | .negativeOrdinal ordinal => "Negative enum ordinal: " ++ integerText ordinal.toInt
  | .notText fault => "Cannot convert bytes to string: " ++ fault.message
  | .zeroWidthItems limit =>
    "Array has more than " ++ integerText limit ++ " zero-width items"

/-- A program that does not fit together. -/
inductive ProgramFault where
  | danglingSymbol (symbol : SymbolId)
  | strayRepetition (symbol : SymbolId)
  | strayDefault (symbol : SymbolId)
  | strayTerminal (terminal : Terminal)
  | strayAction (symbol : SymbolId)
  | emptySequence
  | arrayBody
  | mapBody
  | missingOrder
  | fieldCount (expected decoded : Nat)
  /-- A field placed beyond the end of its record. -/
  | readerIndex (field : String) (index : Nat)
  | unfilledField
  | leftoverDefault (bytes : Nat) (symbol : SymbolId)

def ProgramFault.message : ProgramFault → String
  | .danglingSymbol symbol => "Dangling symbol #" ++ integerText symbol
  | .strayRepetition symbol => "Unexpected repeat at symbol #" ++ integerText symbol
  | .strayDefault symbol => "Unexpected default at symbol #" ++ integerText symbol
  | .strayTerminal terminal =>
    "Terminal " ++ terminal.text ++ " outside of its enclosing sequence"
  | .strayAction symbol =>
    "Action at symbol #" ++ integerText symbol ++ " outside of its enclosing sequence"
  | .emptySequence => "Empty sequence"
  | .arrayBody => "Malformed array body"
  | .mapBody => "Malformed map body"
  | .missingOrder => "Record sequence without field order"
  | .fieldCount expected decoded =>
    "Record expects " ++ integerText expected ++ " fields, decoded " ++ integerText decoded
  | .readerIndex field index =>
    "Field " ++ field ++ " has reader index " ++ integerText index ++ " out of range"
  | .unfilledField => "Unfilled record field"
  | .leftoverDefault bytes symbol =>
    integerText bytes ++ " bytes left over after default at symbol #" ++ integerText symbol

/-- What stopped a read. -/
inductive DecodeFault where
  | data (fault : DataFault)
  | program (fault : ProgramFault)
  | endOfInput
  | overlongVarint
  | notText (fault : Utf8Fault)
  /-- A value that is not of the type a promotion starts from. -/
  | unpromotable (value : Value) (promotion : Promotion)
  | unmappedOrdinal (ordinal : Nat)
  | mismatch (cause : Mismatch)
  /-- A program that calls itself without reading, and so never answers. -/
  | endless

def DecodeFault.message : DecodeFault → String
  | .data fault => "Invalid data: " ++ fault.message
  | .program fault => "Invalid data: " ++ fault.message
  | .endOfInput => "Unexpected end of input"
  | .overlongVarint => "Invalid varint encoding"
  | .notText fault => "Invalid UTF-8: " ++ fault.message
  | .unpromotable value promotion =>
    "Type mismatch: Cannot promote " ++ value.text ++ " from " ++ promotion.source.name ++
      " to " ++ promotion.target.name
  | .unmappedOrdinal ordinal => "No match for writer enum ordinal " ++ integerText ordinal
  | .mismatch cause => "Incompatible schemas: " ++ cause.message
  | .endless => "Endless recursion"

end AvroResolution
