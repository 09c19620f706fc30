/-!
# Writing an integer

`integerChars` writes an integer in decimal: a minus sign if it is negative, no
plus sign, no leading zeros.
-/

namespace AvroResolution

/-- The decimal digits of an integer, after its sign. -/
def integerChars (n : Int) : List Char :=
  let digits := Nat.toDigits 10 n.natAbs
  if n < 0 then '-' :: digits else digits

/-- The decimal text of an integer. -/
def integerText (n : Int) : String :=
  String.ofList (integerChars n)

end AvroResolution
