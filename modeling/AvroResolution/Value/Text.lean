import AvroResolution.Value
import AvroResolution.Number.Integer
import AvroResolution.Number.Layout
import AvroResolution.Text.Quoted

/-!
# How messages show a value

`Value.text` shows a value as a term: the name of its type, then its parts in
parentheses.  Lists are in brackets and strings in double quotes.  A
floating-point number is written in its shortest form, positionally from `1e-4`
up to below `1e16`.
-/

namespace AvroResolution

/-! ## Parts -/

/-- Texts separated by a comma and a blank. -/
def commaSeparated (texts : List String) : String :=
  String.intercalate ", " texts

/-- Bytes as a list of numbers. -/
def bytesText (bytes : List UInt8) : String :=
  "[" ++ commaSeparated (bytes.map fun byte => integerText byte.toNat) ++ "]"

/-- The layout of floating-point numbers in messages. -/
def Value.numberLayout : Layout := ⟨.up, -4, 15, false⟩

/-- A floating-point number given by its format, sign and pattern. -/
def floatText (format : Format) (negative : Bool) (pattern : Nat) : String :=
  if pattern < format.infinity then
    String.ofList (Value.numberLayout.write format negative pattern)
  else if pattern = format.infinity then
    if negative then "-inf" else "inf"
  else
    "NaN"

namespace Value

/-! ## Values -/

mutual

/-- A value as a term. -/
def text : Value → String
  | .null => "Null"
  | .boolean b => "Boolean(" ++ (if b then "true" else "false") ++ ")"
  | .int n => "Int(" ++ integerText n.toInt ++ ")"
  | .long n => "Long(" ++ integerText n.toInt ++ ")"
  | .float x => "Float(" ++ floatText .binary32 x.negative x.pattern ++ ")"
  | .double x => "Double(" ++ floatText .binary64 x.negative x.pattern ++ ")"
  | .bytes content => "Bytes(" ++ bytesText content ++ ")"
  | .string s => "String(" ++ quotedString s ++ ")"
  | .record fields => "Record([" ++ commaSeparated (entryTexts fields) ++ "])"
  | .enum index symbol =>
    "Enum(" ++ integerText index.toInt ++ ", " ++ quotedString symbol ++ ")"
  | .array items => "Array([" ++ commaSeparated (itemTexts items) ++ "])"
  | .map entries => "Map([" ++ commaSeparated (entryTexts entries) ++ "])"
  | .union index value => "Union(" ++ integerText index.toInt ++ ", " ++ text value ++ ")"
  | .fixed content => "Fixed(" ++ bytesText content ++ ")"

/-- Each item as a term. -/
def itemTexts : List Value → List String
  | [] => []
  | item :: rest => text item :: itemTexts rest

/-- Each entry as a pair of its key and its value. -/
def entryTexts : List (String × Value) → List String
  | [] => []
  | (key, value) :: rest =>
    ("(" ++ quotedString key ++ ", " ++ text value ++ ")") :: entryTexts rest

end

end Value

end AvroResolution
