import AvroResolution.Text.Combining
import AvroResolution.Text.Invisible
import AvroResolution.Text.Unassigned

/-!
# Quoted text

How messages show characters and strings.  A character that a reader could not
see as itself between quotes is escaped: the quote, the backslash, and whatever
joins its neighbour, leaves no mark or is unassigned.

* `quotedChar` shows one character, `quotedString` a string with its quotes.
-/

namespace AvroResolution

/-- A character as its code point. -/
def codePointText (c : Char) : String :=
  "\\u\x7b" ++ String.ofList (Nat.toDigits 16 c.toNat) ++ "\x7d"

/-- Whether a character can be seen as itself.  The answer for ASCII needs no
table. -/
def isVisible (c : Char) : Bool :=
  if c.toNat < 0x7F then 0x20 ≤ c.toNat
  else !(isCombiningMark c || isInvisible c || isUnassigned c)

/-- A character between quotes, where `quote` is the quote around it. -/
def quotedChar (quote c : Char) : String :=
  if c = quote ∨ c = '\\' then String.ofList ['\\', c]
  else if c = '\t' then "\\t"
  else if c = '\n' then "\\n"
  else if c = '\r' then "\\r"
  else if c.toNat = 0 then "\\0"
  else if isVisible c then String.singleton c
  else codePointText c

/-- A string in double quotes. -/
def quotedString (s : String) : String :=
  "\"" ++ String.join (s.toList.map (quotedChar '"')) ++ "\""

end AvroResolution
