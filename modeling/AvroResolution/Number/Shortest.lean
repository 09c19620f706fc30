import AvroResolution.Number.Format

/-!
# The fewest digits that read back

A finite binary magnitude has a finite decimal expansion.  `Format.shortest`
cuts that expansion to as few digits as still read back as the same pattern.

* `Format.ofDecimal` is the pattern that a decimal reads as.
* `Format.expansion` is the decimal equal to a pattern's magnitude.
* `Format.shortest` tries one digit, then two, and so on.  At each length it
  looks at the two decimals next to the magnitude, the nearer one first, and
  takes the first that reads back.
-/

namespace AvroResolution

/-- The number `coefficient · 10 ^ exponent`. -/
structure Decimal where
  coefficient : Nat
  exponent : Int
deriving DecidableEq, Repr

namespace Format

/-- The pattern nearest to a decimal. -/
def ofDecimal (format : Format) (decimal : Decimal) : Nat :=
  match decimal.exponent with
  | .ofNat power =>
    format.nearest (decimal.coefficient * Nat.pow 10 power * Nat.pow 2 format.finest) 1
  | .negSucc power =>
    format.nearest (decimal.coefficient * Nat.pow 2 format.finest) (Nat.pow 10 (power + 1))

/-- The decimal equal to a pattern's magnitude, with `finest` places. -/
def expansion (format : Format) (pattern : Nat) : Decimal :=
  ⟨format.units pattern * Nat.pow 5 format.finest, -format.finest⟩

end Format

/-- The two decimals with `dropped` fewer digits that lie around `decimal`, the
nearer one first. -/
def Decimal.around (tie : Tie) (decimal : Decimal) (dropped : Nat) : List Decimal :=
  let step := Nat.pow 10 dropped
  let below := decimal.coefficient / step
  let near := tie.divide decimal.coefficient step
  let far := if near = below then below + 1 else below
  [⟨near, decimal.exponent + dropped⟩, ⟨far, decimal.exponent + dropped⟩]

namespace Format

/-- The first decimal that reads back as `pattern` when at most `dropped`
digits of its expansion are dropped, trying the largest number of dropped
digits first. -/
def shorten (format : Format) (tie : Tie) (pattern : Nat) : (dropped : Nat) → Decimal
  | 0 => format.expansion pattern
  | dropped + 1 =>
    match ((format.expansion pattern).around tie (dropped + 1)).find?
        fun decimal => format.ofDecimal decimal = pattern with
    | some decimal => decimal
    | none => format.shorten tie pattern dropped

/-- The decimal with the fewest digits that reads back as `pattern`; of two such
decimals the nearer one, and on a tie the one `tie` prefers. -/
def shortest (format : Format) (tie : Tie) (pattern : Nat) : Decimal :=
  let digits := Nat.toDigits 10 (format.expansion pattern).coefficient
  format.shorten tie pattern (digits.length - 1)

end Format

end AvroResolution
