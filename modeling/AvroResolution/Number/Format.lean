/-!
# Binary floating-point formats

A format is fixed by the widths of its exponent and its fraction.  Its
magnitudes are handled as *patterns*: the bits below the sign bit, read as one
natural number.  Patterns are ordered as the magnitudes they stand for, and
two neighbouring patterns stand for two neighbouring magnitudes.

* `Format.units` is the magnitude of a pattern, counted in the least positive
  magnitude of the format, so every finite magnitude is a natural number.
* `Format.nearest` is the pattern nearest to a rational number of units.
* `Format.convert` carries a pattern of one format into another.

All arithmetic is exact, on natural numbers.
-/

namespace AvroResolution

/-! ## Rounded quotients -/

/-- Where a quotient goes that lies half way between two natural numbers. -/
inductive Tie where
  /-- To the even one. -/
  | toEven
  /-- To the larger one. -/
  | up
deriving DecidableEq, Repr

/-- The natural number nearest to `numerator / denominator`. -/
def Tie.divide (tie : Tie) (numerator denominator : Nat) : Nat :=
  let quotient := numerator / denominator
  let twiceRest := 2 * (numerator % denominator)
  if denominator < twiceRest then
    quotient + 1
  else if twiceRest < denominator then
    quotient
  else
    match tie with
    | .toEven => quotient + quotient % 2
    | .up => quotient + 1

/-! ## Formats -/

/-- A binary interchange format: a sign bit, an exponent, a fraction. -/
structure Format where
  exponentBits : Nat
  fractionBits : Nat
deriving DecidableEq, Repr

namespace Format

/-- The format of a `float`. -/
def binary32 : Format := ⟨8, 23⟩

/-- The format of a `double`. -/
def binary64 : Format := ⟨11, 52⟩

/-- The least positive magnitude is `2 ^ -finest`. -/
def finest (format : Format) : Nat :=
  Nat.pow 2 (format.exponentBits - 1) + format.fractionBits - 2

/-- The pattern of infinity.  Smaller patterns are finite, larger ones are
NaNs. -/
def infinity (format : Format) : Nat :=
  (Nat.pow 2 format.exponentBits - 1) * Nat.pow 2 format.fractionBits

/-- The pattern of the quiet NaN without a payload. -/
def quietNaN (format : Format) : Nat :=
  format.infinity + Nat.pow 2 (format.fractionBits - 1)

/-- The magnitude of a finite pattern in units of `2 ^ -finest`. -/
def units (format : Format) (pattern : Nat) : Nat :=
  let binadeSize := Nat.pow 2 format.fractionBits
  let fraction := pattern % binadeSize
  match pattern / binadeSize with
  | 0 => fraction
  | binade + 1 => (binadeSize + fraction) * Nat.pow 2 binade

/-- The pattern nearest to `numerator / denominator` units, a tie going to the
even pattern.  A quotient too large for the format gives infinity.

In the binade chosen by `shift` the patterns count in steps of `2 ^ shift`
units, and a significand that rounds up to the next power of two carries into
the exponent by itself. -/
def nearest (format : Format) (numerator denominator : Nat) : Nat :=
  let shift := (numerator / denominator).log2 - format.fractionBits
  let significand := Tie.toEven.divide numerator (denominator * Nat.pow 2 shift)
  min (shift * Nat.pow 2 format.fractionBits + significand) format.infinity

/-- A pattern of `source` as the nearest pattern of `target`.  Infinity stays
infinity, and a NaN becomes the quiet NaN. -/
def convert (source target : Format) (pattern : Nat) : Nat :=
  if pattern < source.infinity then
    target.nearest (source.units pattern * Nat.pow 2 target.finest) (Nat.pow 2 source.finest)
  else if pattern = source.infinity then
    target.infinity
  else
    target.quietNaN

end Format

end AvroResolution
