import AvroResolution.Number.Layout
import Mathlib.Algebra.Order.Field.Power
import Mathlib.Tactic.FieldSimp
import Mathlib.Tactic.Ring

/-!
# Floating-point text reads back

The text of a finite number says which number it is.

* `Format.nearest_units`: a finite pattern is the nearest one to its own magnitude.
* `Format.ofDecimal_shortest`: the decimal that is written reads back as the pattern,
  because no digit is dropped without a look whether it still does.
* `Layout.denoted` is the number that a text without a sign denotes, and
  `Layout.denoted_decimal` says that a text denotes the decimal it was written for, whether
  it is positional or scientific.
* `Layout.write_inj` is the result.
-/

namespace AvroResolution

/-! ## Nearest patterns -/

theorem Tie.divide_mul_left (tie : Tie) {factor : Nat} (h : 0 < factor)
    (numerator denominator : Nat) :
    tie.divide (factor * numerator) (factor * denominator) =
      tie.divide numerator denominator := by
  have htwice : 2 * (factor * (numerator % denominator)) =
      factor * (2 * (numerator % denominator)) := Nat.mul_left_comm ..
  simp only [divide, Nat.mul_div_mul_left _ _ h, Nat.mul_mod_mul_left, htwice,
    Nat.mul_lt_mul_left h]

theorem Tie.divide_mul_self (tie : Tie) (quotient : Nat) {denominator : Nat}
    (h : 0 < denominator) : tie.divide (quotient * denominator) denominator = quotient := by
  simp [divide, Nat.mul_div_cancel _ h, h]

namespace Format

variable {format : Format}

theorem nearest_mul_left {factor : Nat} (h : 0 < factor) (numerator denominator : Nat) :
    format.nearest (factor * numerator) (factor * denominator) =
      format.nearest numerator denominator := by
  simp only [nearest, Nat.mul_div_mul_left _ _ h, Nat.mul_assoc, Tie.divide_mul_left _ h]

/-- Equal quotients have the same nearest pattern. -/
theorem nearest_congr {numerator denominator numerator' denominator' : Nat}
    (hpos : 0 < denominator) (hpos' : 0 < denominator')
    (h : numerator * denominator' = numerator' * denominator) :
    format.nearest numerator denominator = format.nearest numerator' denominator' := by
  rw [← nearest_mul_left hpos' numerator, ← nearest_mul_left hpos numerator',
    Nat.mul_comm denominator' numerator, h, Nat.mul_comm numerator' denominator,
    Nat.mul_comm denominator' denominator]

/-- A finite pattern is the nearest one to its own magnitude.  The magnitude has the binade
of the pattern, and there it is a whole number of steps. -/
theorem nearest_units {pattern : Nat} (h : pattern < format.infinity) :
    format.nearest (format.units pattern) 1 = pattern := by
  have hsize : 0 < Nat.pow 2 format.fractionBits := Nat.two_pow_pos _
  have hsplit := Nat.mod_add_div pattern (Nat.pow 2 format.fractionBits)
  have hfraction := Nat.mod_lt pattern hsize
  simp only [nearest, units, Nat.div_one, Nat.one_mul]
  cases hbinade : pattern / Nat.pow 2 format.fractionBits with
  | zero =>
    rw [hbinade, Nat.mul_zero, Nat.add_zero] at hsplit
    have hlog : Nat.log2 pattern - format.fractionBits = 0 := by
      by_cases hzero : pattern = 0
      · simp [hzero]
      · have hlt := (Nat.log2_lt hzero).2 (hsplit ▸ hfraction)
        omega
    have hdivide := Tie.divide_mul_self .toEven pattern Nat.one_pos
    rw [Nat.mul_one] at hdivide
    simp only [hsplit, hlog]
    rw [Nat.zero_mul, Nat.zero_add, show Nat.pow 2 0 = 1 from rfl, hdivide,
      Nat.min_eq_left h.le]
  | succ binade =>
    rw [hbinade, Nat.mul_add, Nat.mul_one] at hsplit
    generalize hrest : pattern % Nat.pow 2 format.fractionBits = fraction at hsplit hfraction
    have hstep : 0 < Nat.pow 2 binade := Nat.two_pow_pos _
    have hlog : ((Nat.pow 2 format.fractionBits + fraction) * Nat.pow 2 binade).log2 =
        format.fractionBits + binade := by
      have hne : (Nat.pow 2 format.fractionBits + fraction) * Nat.pow 2 binade ≠ 0 :=
        (Nat.mul_pos (Nat.add_pos_left hsize _) hstep).ne'
      refine (Nat.log2_eq_iff hne).2 ⟨?_, ?_⟩
      · rw [Nat.pow_add]
        exact Nat.mul_le_mul_right _ (Nat.le_add_right _ _)
      · rw [Nat.add_right_comm, Nat.pow_add, Nat.pow_succ]
        exact Nat.mul_lt_mul_of_pos_right
          (by rw [Nat.mul_two]; exact Nat.add_lt_add_left hfraction _) hstep
    simp only [hlog, Nat.add_sub_cancel_left, Tie.divide_mul_self _ _ hstep]
    have hpattern : binade * Nat.pow 2 format.fractionBits +
        (Nat.pow 2 format.fractionBits + fraction) = pattern := by
      rw [Nat.mul_comm]
      omega
    rw [hpattern, Nat.min_eq_left h.le]

end Format

/-! ## Decimals -/

/-- The number that a decimal stands for. -/
def Decimal.value (decimal : Decimal) : ℚ :=
  decimal.coefficient * 10 ^ decimal.exponent

namespace Format

variable {format : Format} {pattern : Nat}

/-- A decimal reads as the pattern nearest to its value, however that is written as a
quotient. -/
theorem ofDecimal_eq_nearest {decimal : Decimal} {numerator denominator : Nat}
    (hpos : 0 < denominator)
    (h : (numerator : ℚ) = decimal.value * 2 ^ format.finest * denominator) :
    format.ofDecimal decimal = format.nearest numerator denominator := by
  rcases decimal with ⟨coefficient, power | power⟩
  · refine nearest_congr Nat.one_pos hpos ?_
    have hvalue : (numerator : ℚ) = coefficient * 10 ^ power * 2 ^ format.finest * denominator := h
    rw [Nat.mul_one]
    exact_mod_cast hvalue.symm
  · refine nearest_congr (Nat.pow_pos (by decide)) hpos ?_
    have hvalue : (numerator : ℚ) =
        coefficient * (10 ^ (power + 1))⁻¹ * 2 ^ format.finest * denominator := h
    have hten : (10 : ℚ) ^ (power + 1) ≠ 0 := pow_ne_zero _ (by decide)
    field_simp at hvalue
    have hnat : coefficient * 2 ^ format.finest * denominator = numerator * 10 ^ (power + 1) := by
      exact_mod_cast hvalue.symm
    exact hnat

theorem exists_quotient (format : Format) (decimal : Decimal) :
    ∃ numerator denominator : Nat, 0 < denominator ∧
      (numerator : ℚ) = decimal.value * 2 ^ format.finest * denominator := by
  rcases decimal with ⟨coefficient, power | power⟩
  · refine ⟨coefficient * 10 ^ power * 2 ^ format.finest, 1, Nat.one_pos, ?_⟩
    simp [Decimal.value]
  · refine ⟨coefficient * 2 ^ format.finest, 10 ^ (power + 1), Nat.pow_pos (by decide), ?_⟩
    have hten : (10 : ℚ) ^ (power + 1) ≠ 0 := pow_ne_zero _ (by decide)
    simp only [Decimal.value, zpow_negSucc]
    push_cast
    field_simp

/-- Decimals with one value read as one pattern. -/
theorem ofDecimal_congr (format : Format) {decimal other : Decimal}
    (h : decimal.value = other.value) :
    format.ofDecimal decimal = format.ofDecimal other := by
  obtain ⟨numerator, denominator, hpos, hquotient⟩ := exists_quotient format decimal
  rw [ofDecimal_eq_nearest hpos hquotient, ofDecimal_eq_nearest hpos (h ▸ hquotient)]

theorem ofDecimal_of_coefficient_eq_zero {decimal : Decimal} (h : decimal.coefficient = 0) :
    format.ofDecimal decimal = 0 := by
  have hzero : decimal.value = 0 := by simp [Decimal.value, h]
  rw [ofDecimal_eq_nearest Nat.one_pos (by rw [hzero, Nat.cast_zero]; ring)]
  simp [nearest, Tie.divide]

theorem ofDecimal_expansion (h : pattern < format.infinity) :
    format.ofDecimal (format.expansion pattern) = pattern := by
  have hvalue : (format.units pattern : ℚ) =
      (format.expansion pattern).value * 2 ^ format.finest * (1 : Nat) := by
    have hten : (10 : ℚ) = 5 * 2 := by norm_num
    simp only [Decimal.value, expansion, zpow_neg, zpow_natCast, hten, mul_pow, Nat.pow_eq]
    push_cast
    field_simp
  rw [ofDecimal_eq_nearest Nat.one_pos hvalue, nearest_units h]

/-- Dropping digits stops before the decimal reads as another pattern. -/
theorem ofDecimal_shorten (tie : Tie) (h : pattern < format.infinity) (dropped : Nat) :
    format.ofDecimal (format.shorten tie pattern dropped) = pattern := by
  induction dropped with
  | zero => exact ofDecimal_expansion h
  | succ dropped ih =>
    rw [shorten]
    split
    · rename_i decimal hfound
      have hreads := List.find?_some hfound
      exact of_decide_eq_true hreads
    · exact ih

/-- The decimal that is written for a pattern reads back as the pattern. -/
theorem ofDecimal_shortest (tie : Tie) (h : pattern < format.infinity) :
    format.ofDecimal (format.shortest tie pattern) = pattern :=
  ofDecimal_shorten tie h _

end Format

/-! ## Digits -/

/-- The digits and the zeros that were cut off stand for the value. -/
theorem Decimal.value_eq_digits (decimal : Decimal) :
    decimal.value = Nat.ofDigitChars 10 decimal.digits 0 *
      10 ^ (decimal.leading + 1 - decimal.digits.length) := by
  obtain ⟨zeros, hzeros⟩ : ∃ zeros, Nat.toDigits 10 decimal.coefficient =
      decimal.digits ++ List.replicate zeros '0' := by
    refine ⟨((Nat.toDigits 10 decimal.coefficient).reverse.takeWhile (· = '0')).length, ?_⟩
    have hzero : ∀ c ∈ (Nat.toDigits 10 decimal.coefficient).reverse.takeWhile (· = '0'),
        c = '0' := fun c hc =>
      of_decide_eq_true (List.all_eq_true.1 List.all_takeWhile c hc)
    rw [digits, ← List.reverse_replicate, ← List.reverse_append,
      ← List.eq_replicate_of_mem hzero, List.takeWhile_append_dropWhile, List.reverse_reverse]
  have hcoefficient : decimal.coefficient =
      10 ^ zeros * Nat.ofDigitChars 10 decimal.digits 0 := by
    conv_lhs => rw [← Nat.ofDigitChars_ten_toDigits (n := decimal.coefficient), hzeros]
    rw [Nat.ofDigitChars_append, Nat.ofDigitChars_replicate_zero]
  have hexponent : decimal.leading + 1 - decimal.digits.length = decimal.exponent + zeros := by
    have hlength := congrArg List.length hzeros
    have hpos : 0 < (Nat.toDigits 10 decimal.coefficient).length := Nat.length_toDigits_pos
    rw [List.length_append, List.length_replicate] at hlength
    rw [leading]
    omega
  have hten : (10 : ℚ) ≠ 0 := by decide
  rw [hexponent, zpow_add₀ hten, zpow_natCast, value]
  conv_lhs => rw [hcoefficient]
  push_cast
  ring

theorem Decimal.isDigit_of_mem_digits {decimal : Decimal} {c : Char} (h : c ∈ decimal.digits) :
    c.isDigit = true := by
  have hmem := (List.dropWhile_suffix _).subset (List.mem_reverse.1 h)
  exact Nat.isDigit_of_mem_toDigits (by decide) (by decide) (List.mem_reverse.1 hmem)

/-! ## What a text denotes -/

/-- The characters before the first `mark`, and those after it. -/
def cutAt (mark : Char) : List Char → List Char × List Char
  | [] => ([], [])
  | c :: rest =>
    if c = mark then ([], rest) else (c :: (cutAt mark rest).1, (cutAt mark rest).2)

theorem cutAt_append {mark : Char} {before : List Char} (h : mark ∉ before)
    (after : List Char) : cutAt mark (before ++ mark :: after) = (before, after) := by
  induction before with
  | nil => simp [cutAt]
  | cons c rest ih =>
    obtain ⟨hne, hrest⟩ := not_or.1 (mt List.mem_cons.2 h)
    rw [List.cons_append, cutAt, if_neg (Ne.symm hne), ih hrest]

theorem cutAt_of_not_mem {mark : Char} {text : List Char} (h : mark ∉ text) :
    cutAt mark text = (text, []) := by
  induction text with
  | nil => rfl
  | cons c rest ih =>
    obtain ⟨hne, hrest⟩ := not_or.1 (mt List.mem_cons.2 h)
    rw [cutAt, if_neg (Ne.symm hne), ih hrest]

namespace Layout

/-- The integer that the text of an exponent denotes.  A text left out denotes zero. -/
def exponentOf : List Char → ℤ
  | '-' :: digits => -(Nat.ofDigitChars 10 digits 0 : ℤ)
  | '+' :: digits => Nat.ofDigitChars 10 digits 0
  | digits => Nat.ofDigitChars 10 digits 0

/-- The number that a text without a sign denotes: digits, among which there may be a point,
and an exponent after an `e`. -/
def denoted (text : List Char) : ℚ :=
  let parts := cutAt 'e' text
  let mantissa := cutAt '.' parts.1
  Nat.ofDigitChars 10 (mantissa.1 ++ mantissa.2) 0 *
    10 ^ (exponentOf parts.2 - mantissa.2.length)

/-- Every character is a digit. -/
def AllDigits (text : List Char) : Prop :=
  ∀ c ∈ text, c.isDigit = true

theorem AllDigits.not_mem {text : List Char} (h : AllDigits text) {c : Char}
    (hc : c.isDigit = false) : c ∉ text := fun hmem => by
  rw [h c hmem] at hc
  cases hc

theorem AllDigits.append {text other : List Char} (h : AllDigits text) (hother : AllDigits other) :
    AllDigits (text ++ other) := fun c hc =>
  (List.mem_append.1 hc).elim (h c) (hother c)

theorem AllDigits.take {text : List Char} (h : AllDigits text) (count : Nat) :
    AllDigits (text.take count) := fun c hc => h c (List.mem_of_mem_take hc)

theorem AllDigits.drop {text : List Char} (h : AllDigits text) (count : Nat) :
    AllDigits (text.drop count) := fun c hc => h c (List.mem_of_mem_drop hc)

theorem allDigits_toDigits (n : Nat) : AllDigits (Nat.toDigits 10 n) := fun _ hc =>
  Nat.isDigit_of_mem_toDigits (by decide) (by decide) hc

theorem allDigits_zeros (count : Nat) : AllDigits (List.replicate count '0') := fun c hc => by
  rw [List.eq_of_mem_replicate hc]
  rfl

/-- A point among digits. -/
theorem denoted_pointed {whole fraction : List Char} (hwhole : AllDigits whole)
    (hfraction : AllDigits fraction) : denoted (whole ++ '.' :: fraction) =
      Nat.ofDigitChars 10 (whole ++ fraction) 0 * 10 ^ (-(fraction.length : ℤ)) := by
  have hnone : 'e' ∉ whole ++ '.' :: fraction := by
    simp [hwhole.not_mem (c := 'e') rfl, hfraction.not_mem (c := 'e') rfl]
  simp [denoted, cutAt_of_not_mem hnone, cutAt_append (hwhole.not_mem (c := '.') rfl),
    exponentOf]

/-- A positional text denotes its digits at their places. -/
theorem denoted_positional {digits : List Char} (h : AllDigits digits) (exponent : ℤ) :
    denoted (positional digits exponent) =
      Nat.ofDigitChars 10 digits 0 * 10 ^ (exponent + 1 - digits.length) := by
  have hten : (10 : ℚ) ≠ 0 := by decide
  rcases exponent with places | zeros
  · have hwhole := (h.take (places + 1)).append
      (allDigits_zeros (places + 1 - (digits.take (places + 1)).length))
    rcases Nat.lt_or_ge (places + 1) digits.length with hlong | hshort
    · have hsome : (digits.drop (places + 1)).isEmpty = false := by
        simp [List.isEmpty_eq_false_iff, List.drop_eq_nil_iff, hlong]
      have hlength : (digits.take (places + 1)).length = places + 1 := by
        rw [List.length_take]
        omega
      rw [positional, hsome, if_neg Bool.false_ne_true, denoted_pointed hwhole (h.drop _), hlength,
        Nat.sub_self, List.replicate_zero, List.append_nil, List.take_append_drop,
        List.length_drop, Int.ofNat_eq_natCast]
      congr 2
      omega
    · have hnone : (digits.drop (places + 1)).isEmpty = true := by
        simp [hshort]
      rw [positional, hnone, if_pos rfl]
      refine (denoted_pointed hwhole (allDigits_zeros 1)).trans ?_
      rw [List.take_of_length_le hshort, List.append_assoc, ← List.replicate_add,
        Nat.ofDigitChars_append, Nat.ofDigitChars_replicate_zero]
      have hexponent : (Int.ofNat places + 1 - digits.length : ℤ) =
          (places + 1 - digits.length + 1 : ℕ) + -((List.replicate 1 '0').length : ℤ) := by
        simp only [List.length_replicate, Int.ofNat_eq_natCast]
        omega
      rw [hexponent, zpow_add₀ hten, zpow_natCast]
      push_cast
      ring
  · have hpointed := denoted_pointed (allDigits_zeros 1) ((allDigits_zeros zeros).append h)
    have hvalue : Nat.ofDigitChars 10
        (List.replicate 1 '0' ++ (List.replicate zeros '0' ++ digits)) 0 =
        Nat.ofDigitChars 10 digits 0 := by
      rw [← List.append_assoc, ← List.replicate_add, Nat.ofDigitChars_append,
        Nat.ofDigitChars_replicate_zero, Nat.mul_zero]
    refine hpointed.trans ?_
    rw [hvalue, List.length_append, List.length_replicate]
    congr 2
    omega

theorem exponentOf_of_allDigits {digits : List Char} (h : AllDigits digits) :
    exponentOf digits = Nat.ofDigitChars 10 digits 0 := by
  unfold exponentOf
  split
  · exact absurd (List.mem_cons_self) (h.not_mem (c := '-') rfl)
  · exact absurd (List.mem_cons_self) (h.not_mem (c := '+') rfl)
  · rfl

/-- The sign of an exponent and its digits denote the exponent. -/
theorem exponentOf_sign (plus : Bool) (exponent : ℤ) :
    exponentOf ((if exponent < 0 then ['-'] else if plus then ['+'] else []) ++
      Nat.toDigits 10 exponent.natAbs) = exponent := by
  by_cases hneg : exponent < 0
  · simp only [if_pos hneg, List.cons_append, List.nil_append, exponentOf,
      Nat.ofDigitChars_ten_toDigits]
    omega
  · rw [if_neg hneg]
    cases plus with
    | true =>
      simp only [if_pos, List.cons_append, List.nil_append, exponentOf,
        Nat.ofDigitChars_ten_toDigits]
      omega
    | false =>
      rw [if_neg Bool.false_ne_true, List.nil_append,
        exponentOf_of_allDigits (allDigits_toDigits _), Nat.ofDigitChars_ten_toDigits]
      omega

/-- A scientific text denotes its digits, the first of which has the exponent. -/
theorem denoted_scientific {digits : List Char} (h : AllDigits digits) (hne : digits ≠ [])
    (plus : Bool) (exponent : ℤ) : denoted (scientific plus digits exponent) =
      Nat.ofDigitChars 10 digits 0 * 10 ^ (exponent + 1 - digits.length) := by
  match digits, hne with
  | [digit], _ =>
    have hmark : 'e' ∉ [digit] := h.not_mem rfl
    have hpoint : '.' ∉ [digit] := h.not_mem rfl
    have hcut := cutAt_append hmark ((if exponent < 0 then ['-'] else if plus then ['+'] else []) ++
      Nat.toDigits 10 exponent.natAbs)
    simp only [scientific, denoted, hcut, cutAt_of_not_mem hpoint, exponentOf_sign]
    simp
  | first :: second :: rest, _ =>
    have hfirst : AllDigits [first] := fun c hc => h c (List.mem_of_mem_head? (by simp_all))
    have hmark : 'e' ∉ first :: '.' :: second :: rest := by
      have := h.not_mem (c := 'e') rfl
      simp_all
    have hpoint : '.' ∉ [first] := hfirst.not_mem rfl
    have hcut := cutAt_append hpoint (second :: rest)
    rw [List.singleton_append] at hcut
    simp only [scientific, denoted, cutAt_append hmark, hcut, exponentOf_sign,
      List.singleton_append, List.length_cons]
    congr 2
    omega

variable {layout : Layout} {format : Format}

/-- A text denotes the decimal that it was written for. -/
theorem denoted_decimal {decimal : Decimal} (h : decimal.digits ≠ []) :
    denoted (layout.decimal decimal) = decimal.value := by
  have hdigits : AllDigits decimal.digits := fun _ hc => Decimal.isDigit_of_mem_digits hc
  rw [Layout.decimal, decimal.value_eq_digits]
  split
  · exact denoted_positional hdigits _
  · exact denoted_scientific hdigits h _ _

/-! ## The text of a number -/

/-- The text of a pattern, after the sign. -/
def magnitude (layout : Layout) (format : Format) (pattern : Nat) : List Char :=
  if pattern = 0 then ['0', '.', '0'] else layout.decimal (format.shortest layout.tie pattern)

theorem write_eq (negative : Bool) (pattern : Nat) : layout.write format negative pattern =
    (if negative then ['-'] else []) ++ layout.magnitude format pattern := by
  rw [write, magnitude]
  split <;> rfl

theorem digits_shortest_ne_nil {pattern : Nat} (tie : Tie) (h : pattern < format.infinity)
    (hne : pattern ≠ 0) : (format.shortest tie pattern).digits ≠ [] := by
  intro hnil
  have hvalue := (format.shortest tie pattern).value_eq_digits
  rw [hnil, Nat.ofDigitChars_nil, Nat.cast_zero, zero_mul] at hvalue
  have hzero : (⟨0, 0⟩ : Decimal).value = 0 := by simp [Decimal.value]
  have hreads := Format.ofDecimal_congr format (hvalue.trans hzero.symm)
  rw [Format.ofDecimal_shortest tie h, Format.ofDecimal_of_coefficient_eq_zero rfl] at hreads
  exact hne hreads

/-- What the text of a pattern denotes reads as the pattern. -/
theorem exists_denoted_magnitude (layout : Layout) {pattern : Nat} (h : pattern < format.infinity) :
    ∃ decimal, decimal.value = denoted (layout.magnitude format pattern) ∧
      format.ofDecimal decimal = pattern := by
  by_cases hzero : pattern = 0
  · subst hzero
    refine ⟨⟨0, 0⟩, ?_, Format.ofDecimal_of_coefficient_eq_zero rfl⟩
    refine Eq.trans ?_ (denoted_pointed (allDigits_zeros 1) (allDigits_zeros 1)).symm
    simp [Decimal.value, Nat.ofDigitChars]
  · refine ⟨format.shortest layout.tie pattern, ?_, Format.ofDecimal_shortest _ h⟩
    rw [magnitude, if_neg hzero, denoted_decimal (digits_shortest_ne_nil _ h hzero)]

theorem exists_digit_decimal {decimal : Decimal} (h : decimal.digits ≠ []) :
    ∃ first rest, layout.decimal decimal = first :: rest ∧ first.isDigit = true := by
  obtain ⟨first, rest, hdigits⟩ := List.exists_cons_of_ne_nil h
  have hmem : first ∈ decimal.digits := hdigits ▸ List.mem_cons_self
  have hfirst := Decimal.isDigit_of_mem_digits hmem
  rw [Layout.decimal, hdigits]
  split
  · rcases decimal.leading with places | zeros
    · exact ⟨first, _, rfl, hfirst⟩
    · exact ⟨'0', _, rfl, rfl⟩
  · cases rest with
    | nil => exact ⟨first, _, rfl, hfirst⟩
    | cons second rest => exact ⟨first, _, rfl, hfirst⟩

/-- The text of a magnitude begins with a digit. -/
theorem exists_digit_magnitude (layout : Layout) {pattern : Nat} (h : pattern < format.infinity) :
    ∃ first rest, layout.magnitude format pattern = first :: rest ∧ first.isDigit = true := by
  rw [magnitude]
  split
  · exact ⟨'0', _, rfl, rfl⟩
  · exact exists_digit_decimal (digits_shortest_ne_nil _ h ‹_›)

/-- Two finite numbers with one text are the same. -/
theorem write_inj {negative negative' : Bool} {pattern pattern' : Nat}
    (h : pattern < format.infinity) (h' : pattern' < format.infinity)
    (htext : layout.write format negative pattern = layout.write format negative' pattern') :
    negative = negative' ∧ pattern = pattern' := by
  obtain ⟨first, rest, hstart, hdigit⟩ := exists_digit_magnitude layout h
  obtain ⟨first', rest', hstart', hdigit'⟩ := exists_digit_magnitude layout h'
  have hminus {c : Char} (hc : c.isDigit = true) : '-' ≠ c := by
    rintro rfl
    cases hc
  have hsplit : negative = negative' ∧
      layout.magnitude format pattern = layout.magnitude format pattern' := by
    rw [write_eq, write_eq, hstart, hstart'] at htext
    cases negative <;> cases negative'
    · exact ⟨rfl, by rw [hstart, hstart']; exact htext⟩
    · exact absurd (List.cons.inj htext).1.symm (hminus hdigit)
    · exact absurd (List.cons.inj htext).1 (hminus hdigit')
    · exact ⟨rfl, by rw [hstart, hstart']; exact (List.cons.inj htext).2⟩
  refine ⟨hsplit.1, ?_⟩
  obtain ⟨decimal, hvalue, hreads⟩ := exists_denoted_magnitude layout h
  obtain ⟨decimal', hvalue', hreads'⟩ := exists_denoted_magnitude layout h'
  rw [← hreads, ← hreads']
  exact Format.ofDecimal_congr format (by rw [hvalue, hvalue', hsplit.2])

/-! ## The characters of a number -/

/-- Whether a character may stand in a number. -/
def isNumberChar (c : Char) : Bool :=
  c.isDigit || c == '-' || c == '+' || c == '.' || c == 'e'

theorem AllDigits.all_isNumberChar {text : List Char} (h : AllDigits text) :
    text.all isNumberChar = true :=
  List.all_eq_true.2 fun c hc => by simp [isNumberChar, h c hc]

theorem all_isNumberChar_positional {digits : List Char} (h : AllDigits digits) (exponent : ℤ) :
    (positional digits exponent).all isNumberChar = true := by
  rcases exponent with places | zeros
  · rw [positional, List.all_append, List.all_append, (h.take _).all_isNumberChar,
      (allDigits_zeros _).all_isNumberChar, List.all_cons]
    split
    · rfl
    · rw [(h.drop _).all_isNumberChar]
      rfl
  · have htail := ((allDigits_zeros zeros).append h).all_isNumberChar
    rw [positional, List.all_cons, List.all_cons, htail]
    rfl

theorem all_isNumberChar_scientific {digits : List Char} (h : AllDigits digits) (plus : Bool)
    (exponent : ℤ) : (scientific plus digits exponent).all isNumberChar = true := by
  have hexponent : ((if exponent < 0 then ['-'] else if plus then ['+'] else []) ++
      Nat.toDigits 10 exponent.natAbs).all isNumberChar = true := by
    rw [List.all_append, (allDigits_toDigits _).all_isNumberChar]
    split
    · rfl
    · split <;> rfl
  have hmantissa : ∀ mantissa : List Char, mantissa.all isNumberChar = true →
      (mantissa ++ 'e' :: ((if exponent < 0 then ['-'] else if plus then ['+'] else []) ++
        Nat.toDigits 10 exponent.natAbs)).all isNumberChar = true := by
    intro mantissa hmantissa
    rw [List.all_append, hmantissa, List.all_cons, hexponent]
    rfl
  refine hmantissa _ ?_
  have hall := h.all_isNumberChar
  split
  · rw [List.all_cons, Bool.and_eq_true] at hall
    rw [List.all_cons, List.all_cons, hall.1, hall.2]
    rfl
  · exact hall

/-- The text of a number is made of the characters of numbers. -/
theorem all_isNumberChar_write (layout : Layout) (format : Format) (negative : Bool)
    (pattern : Nat) : (layout.write format negative pattern).all isNumberChar = true := by
  have hdigits : AllDigits (format.shortest layout.tie pattern).digits :=
    fun _ hc => Decimal.isDigit_of_mem_digits hc
  have hsign : (if negative then ['-'] else []).all isNumberChar = true := by
    cases negative <;> rfl
  rw [write_eq, List.all_append, hsign, magnitude]
  split
  · rfl
  · rw [Layout.decimal]
    split
    · exact all_isNumberChar_positional hdigits _
    · exact all_isNumberChar_scientific hdigits _ _

/-- The text of a number holds a point or an exponent, as no integer does. -/
theorem marked_write (layout : Layout) (format : Format) (negative : Bool) (pattern : Nat) :
    '.' ∈ layout.write format negative pattern ∨ 'e' ∈ layout.write format negative pattern := by
  have hmagnitude : '.' ∈ layout.magnitude format pattern ∨
      'e' ∈ layout.magnitude format pattern := by
    by_cases hzero : pattern = 0
    · rw [magnitude, if_pos hzero]
      exact .inl (by decide)
    · rw [magnitude, if_neg hzero, Layout.decimal]
      split
      · left
        cases (format.shortest layout.tie pattern).leading <;> simp [positional]
      · right
        simp [scientific]
  rw [write_eq]
  exact hmagnitude.imp (List.mem_append_right _) (List.mem_append_right _)

end Layout

end AvroResolution
