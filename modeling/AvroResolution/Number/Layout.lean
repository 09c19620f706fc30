import AvroResolution.Number.Shortest

/-!
# Writing a floating-point number

A `Layout` holds the decisions of one text format: when a number is written
positionally, how an exponent is written, and where a tie between two shortest
decimals goes.  `Layout.write` is the text of a finite number under a layout.

A positional number always has a digit on both sides of the point.  A
scientific number has one digit before the point, no point when that is its
only digit, and an unpadded exponent.
-/

namespace AvroResolution

/-- The decisions of a text format for finite numbers.  The exponents are those
of the leading digit. -/
structure Layout where
  /-- Which of two equally near shortest decimals is written. -/
  tie : Tie
  /-- The least exponent written positionally. -/
  lowest : Int
  /-- The greatest exponent written positionally. -/
  highest : Int
  /-- Whether a positive exponent carries a plus sign. -/
  plus : Bool

/-- The digits of a decimal without the zeros at its end. -/
def Decimal.digits (decimal : Decimal) : List Char :=
  ((Nat.toDigits 10 decimal.coefficient).reverse.dropWhile (· = '0')).reverse

/-- The exponent of the leading digit. -/
def Decimal.leading (decimal : Decimal) : Int :=
  decimal.exponent + ((Nat.toDigits 10 decimal.coefficient).length - 1 : Nat)

namespace Layout

/-- A positional number: `exponent` is that of the first of `digits`. -/
def positional (digits : List Char) (exponent : Int) : List Char :=
  match exponent with
  | .ofNat places =>
    let whole := digits.take (places + 1)
    let fraction := digits.drop (places + 1)
    whole ++ List.replicate (places + 1 - whole.length) '0' ++
      '.' :: (if fraction.isEmpty then ['0'] else fraction)
  | .negSucc zeros => '0' :: '.' :: (List.replicate zeros '0' ++ digits)

/-- A scientific number: `exponent` is that of the first of `digits`. -/
def scientific (plus : Bool) (digits : List Char) (exponent : Int) : List Char :=
  let mantissa :=
    match digits with
    | first :: second :: rest => first :: '.' :: second :: rest
    | short => short
  let sign := if exponent < 0 then ['-'] else if plus then ['+'] else []
  mantissa ++ 'e' :: (sign ++ Nat.toDigits 10 exponent.natAbs)

/-- The text of a positive decimal. -/
def decimal (layout : Layout) (value : Decimal) : List Char :=
  if layout.lowest ≤ value.leading ∧ value.leading ≤ layout.highest then
    positional value.digits value.leading
  else
    scientific layout.plus value.digits value.leading

/-- The text of the finite number with the given sign and pattern. -/
def write (layout : Layout) (format : Format) (negative : Bool) (pattern : Nat) : List Char :=
  let sign := if negative then ['-'] else []
  if pattern = 0 then
    sign ++ ['0', '.', '0']
  else
    sign ++ layout.decimal (format.shortest layout.tie pattern)

end Layout

end AvroResolution
