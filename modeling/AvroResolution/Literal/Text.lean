import AvroResolution.Literal
import AvroResolution.Number.Integer
import AvroResolution.Number.Layout

/-!
# The text of a literal

`Literal.text` is compact JSON: no spaces, the entries of an object in the order
of their keys, and a floating-point number in its shortest form, which always
holds a point or an exponent.  In a string only the quote, the backslash and the
control characters below U+0020 are escaped.
-/

namespace AvroResolution

namespace Literal

/-- The layout of floating-point numbers in JSON: positional from `1e-5` up to
`1e15`, with a sign on every exponent. -/
def numberLayout : Layout := ⟨.toEven, -5, 15, true⟩

/-! ## Strings -/

/-- A character inside a JSON string. -/
def escapeChar (c : Char) : List Char :=
  if c = '"' then ['\\', '"']
  else if c = '\\' then ['\\', '\\']
  else if 0x20 ≤ c.toNat then [c]
  else if c = '\n' then ['\\', 'n']
  else if c = '\r' then ['\\', 'r']
  else if c = '\t' then ['\\', 't']
  else if c.toNat = 0x08 then ['\\', 'b']
  else if c.toNat = 0x0C then ['\\', 'f']
  else ['\\', 'u', '0', '0', Nat.digitChar (c.toNat / 16), Nat.digitChar (c.toNat % 16)]

/-- A quoted JSON string. -/
def stringChars (s : String) : List Char :=
  '"' :: (s.toList.flatMap escapeChar ++ ['"'])

/-! ## Numbers -/

/-- A finite floating-point number. -/
def floatChars (x : Binary64) : List Char :=
  numberLayout.write .binary64 x.negative x.pattern

/-! ## Literals -/

mutual

/-- The compact JSON text of a literal. -/
def chars : Literal → List Char
  | .null => ['n', 'u', 'l', 'l']
  | .boolean true => ['t', 'r', 'u', 'e']
  | .boolean false => ['f', 'a', 'l', 's', 'e']
  | .integer n => integerChars n
  | .float x _ => floatChars x
  | .string s => stringChars s
  | .array [] => ['[', ']']
  | .array (x :: xs) => '[' :: (chars x ++ moreElements xs)
  | .object [] => ['\x7b', '\x7d']
  | .object ((key, x) :: rest) =>
    '\x7b' :: (stringChars key ++ ':' :: (chars x ++ moreEntries rest))

/-- The elements after the first, each after a comma, and the closing bracket. -/
def moreElements : List Literal → List Char
  | [] => [']']
  | x :: xs => ',' :: (chars x ++ moreElements xs)

/-- The entries after the first, each after a comma, and the closing brace. -/
def moreEntries : List (String × Literal) → List Char
  | [] => ['\x7d']
  | (key, x) :: rest => ',' :: (stringChars key ++ ':' :: (chars x ++ moreEntries rest))

end

/-- The compact JSON text of a literal. -/
def text (literal : Literal) : String :=
  String.ofList literal.chars

end Literal

end AvroResolution
