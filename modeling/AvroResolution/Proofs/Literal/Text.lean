import AvroResolution.Literal.Text
import AvroResolution.Proofs.Number.ReadBack

/-!
# A text is the text of one literal

`Literal.text` is injective: two literals with the same compact text are the same.

* Inside a string, `readEscaped` takes back what `Literal.escapeChar` writes.
* The text of a number ends where a character follows that stands in no number
  (`Literal.Closes`).  An integer is told from a floating-point number by the point or the
  exponent that only the latter has.
* `Literal.opening` is the character that tells the kind of a literal.
* `Literal.chars_append_inj` says that what follows the text of a literal is determined as
  well, which is what its elements and entries need; `Literal.text_inj` is the result.
-/

namespace AvroResolution

namespace Literal

/-! ## Strings -/

/-- The value of a hexadecimal digit. -/
def hexValue (c : Char) : Nat :=
  if c.isDigit then c.toNat - 48 else c.toNat - 87

/-- The first character of a string whose text is given without the opening quote, and the
text after it.  At the closing quote there is none. -/
def readEscaped : List Char → Option (Char × List Char)
  | '"' :: _ => none
  | '\\' :: 'n' :: rest => some ('\n', rest)
  | '\\' :: 'r' :: rest => some ('\r', rest)
  | '\\' :: 't' :: rest => some ('\t', rest)
  | '\\' :: 'b' :: rest => some (Char.ofNat 0x08, rest)
  | '\\' :: 'f' :: rest => some (Char.ofNat 0x0C, rest)
  | '\\' :: 'u' :: _ :: _ :: high :: low :: rest =>
    some (Char.ofNat (16 * hexValue high + hexValue low), rest)
  | '\\' :: c :: rest => some (c, rest)
  | c :: rest => some (c, rest)
  | [] => none

theorem hexValue_digitChar {n : Nat} (h : n < 16) : hexValue (Nat.digitChar n) = n := by
  have hall : ∀ n < 16, hexValue (Nat.digitChar n) = n := by decide
  exact hall n h

theorem readEscaped_escapeChar (c : Char) (rest : List Char) :
    readEscaped (escapeChar c ++ rest) = some (c, rest) := by
  have hcode {n : Nat} (h : c.toNat = n) : Char.ofNat n = c := by
    rw [← h, Char.ofNat_toNat]
  by_cases hquote : c = '"'
  · rw [hquote]
    rfl
  by_cases hbackslash : c = '\\'
  · rw [hbackslash]
    rfl
  rw [escapeChar, if_neg hquote, if_neg hbackslash]
  split
  · rw [List.singleton_append]
    unfold readEscaped
    split <;> simp_all
  · split
    · simp_all [readEscaped]
    · split
      · simp_all [readEscaped]
      · split
        · simp_all [readEscaped]
        · split
          · exact congrArg (fun c => some (c, rest)) (hcode ‹_›)
          · split
            · exact congrArg (fun c => some (c, rest)) (hcode ‹_›)
            · have hvalue : 16 * hexValue (Nat.digitChar (c.toNat / 16)) +
                  hexValue (Nat.digitChar (c.toNat % 16)) = c.toNat := by
                rw [hexValue_digitChar (by omega), hexValue_digitChar (by omega)]
                omega
              simp only [List.cons_append, List.nil_append, readEscaped, hvalue,
                Char.ofNat_toNat]

theorem escaped_append_inj {cs ds rest rest' : List Char}
    (h : cs.flatMap escapeChar ++ '"' :: rest = ds.flatMap escapeChar ++ '"' :: rest') :
    cs = ds ∧ rest = rest' := by
  have hread := congrArg readEscaped h
  induction cs generalizing ds with
  | nil =>
    cases ds with
    | nil => exact ⟨rfl, (List.cons.inj h).2⟩
    | cons d ds =>
      rw [List.flatMap_cons, List.append_assoc, readEscaped_escapeChar] at hread
      cases hread
  | cons c cs ih =>
    cases ds with
    | nil =>
      rw [List.flatMap_cons, List.append_assoc, readEscaped_escapeChar] at hread
      cases hread
    | cons d ds =>
      rw [List.flatMap_cons, List.flatMap_cons, List.append_assoc, List.append_assoc,
        readEscaped_escapeChar, readEscaped_escapeChar] at hread
      obtain ⟨rfl, htail⟩ := Prod.mk.inj (Option.some.inj hread)
      obtain ⟨rfl, hrest⟩ := ih htail (congrArg _ htail)
      exact ⟨rfl, hrest⟩

theorem stringChars_append_inj {s t : String} {rest rest' : List Char}
    (h : stringChars s ++ rest = stringChars t ++ rest') : s = t ∧ rest = rest' := by
  simp only [stringChars, List.cons_append, List.append_assoc, List.nil_append,
    List.cons.injEq, true_and] at h
  obtain ⟨hchars, hrest⟩ := escaped_append_inj h
  exact ⟨String.toList_inj.1 hchars, hrest⟩

/-! ## Numbers -/

/-- A text after the text of a literal: it does not continue a number. -/
def Closes (rest : List Char) : Prop :=
  ∀ c ∈ rest.head?, Layout.isNumberChar c = false

theorem closes_nil : Closes [] := fun _ h => by cases h

theorem closes_cons {c : Char} (h : Layout.isNumberChar c = false) (rest : List Char) :
    Closes (c :: rest) := fun _ hhead => by
  cases hhead
  exact h

/-- The text of a number ends where no character of numbers follows. -/
theorem number_append_inj {number other rest rest' : List Char}
    (hnumber : number.all Layout.isNumberChar = true)
    (hother : other.all Layout.isNumberChar = true) (hrest : Closes rest) (hrest' : Closes rest')
    (h : number ++ rest = other ++ rest') : number = other ∧ rest = rest' := by
  have htake {text after : List Char} (htext : text.all Layout.isNumberChar = true)
      (hafter : Closes after) : (text ++ after).takeWhile Layout.isNumberChar = text := by
    rw [List.takeWhile_append_of_pos (List.all_eq_true.1 htext)]
    cases after with
    | nil => simp
    | cons c after => simp [hafter c rfl]
  have hnumbers : number = other := by
    rw [← htake hnumber hrest, ← htake hother hrest', h]
  subst hnumbers
  exact ⟨rfl, List.append_cancel_left h⟩

theorem all_isNumberChar_integerChars (n : Int) :
    (integerChars n).all Layout.isNumberChar = true := by
  have hdigits := (Layout.allDigits_toDigits n.natAbs).all_isNumberChar
  rw [integerChars]
  split
  · rw [List.all_cons, hdigits]
    rfl
  · exact hdigits

theorem integerChars_inj {m n : Int} (h : integerChars m = integerChars n) : m = n := by
  have hdigits {k l : Nat} (hkl : Nat.toDigits 10 k = Nat.toDigits 10 l) : k = l := by
    rw [← Nat.ofDigitChars_ten_toDigits (n := k), hkl, Nat.ofDigitChars_ten_toDigits]
  have hminus (k : Nat) : '-' ∉ Nat.toDigits 10 k := (Layout.allDigits_toDigits k).not_mem rfl
  simp only [integerChars] at h
  split at h <;> split at h
  · have := hdigits (List.cons.inj h).2
    omega
  · exact absurd (h ▸ List.mem_cons_self) (hminus _)
  · exact absurd (h ▸ List.mem_cons_self) (hminus _)
  · have := hdigits h
    omega

/-- No integer has a point or an exponent. -/
theorem not_mem_integerChars {c : Char} (hdigit : c.isDigit = false) (hminus : c ≠ '-') (n : Int) :
    c ∉ integerChars n := by
  have hdigits := (Layout.allDigits_toDigits n.natAbs).not_mem hdigit
  rw [integerChars]
  split
  · simp [hminus, hdigits]
  · exact hdigits

theorem integerChars_ne_floatChars (n : Int) (x : Binary64) : integerChars n ≠ floatChars x := by
  intro h
  have hmarked := Layout.marked_write numberLayout .binary64 x.negative x.pattern
  rw [show numberLayout.write .binary64 x.negative x.pattern = integerChars n from h.symm]
    at hmarked
  rcases hmarked with hpoint | hexponent
  · exact not_mem_integerChars rfl (by decide) n hpoint
  · exact not_mem_integerChars rfl (by decide) n hexponent

end Literal

/-- A number is known by its sign and its pattern. -/
theorem Binary64.eq_of_pattern {x y : Binary64} (hsign : x.negative = y.negative)
    (hpattern : x.pattern = y.pattern) : x = y := by
  rcases x with ⟨bits⟩
  rcases y with ⟨bits'⟩
  simp only [negative, pattern, decide_eq_decide] at hsign hpattern
  have hlt := bits.toNat_lt
  have hlt' := bits'.toNat_lt
  have hbits : bits.toNat = bits'.toNat := by omega
  rw [UInt64.toNat_inj.1 hbits]

namespace Literal

theorem floatChars_inj {x y : Binary64} (hx : x.isFinite = true) (hy : y.isFinite = true)
    (h : floatChars x = floatChars y) : x = y := by
  obtain ⟨hsign, hpattern⟩ :=
    Layout.write_inj (of_decide_eq_true hx) (of_decide_eq_true hy) h
  exact Binary64.eq_of_pattern hsign hpattern

/-! ## The kind of a literal -/

/-- The character that the text of a literal begins with, or a minus sign if that is a
digit. -/
def opening : Literal → Char
  | .null => 'n'
  | .boolean true => 't'
  | .boolean false => 'f'
  | .integer _ => '-'
  | .float _ _ => '-'
  | .string _ => '"'
  | .array _ => '['
  | .object _ => '\x7b'

theorem exists_opening (x : Literal) : ∃ first rest, x.chars = first :: rest ∧
    (if first.isDigit then '-' else first) = x.opening := by
  match x with
  | .null => exact ⟨_, _, rfl, rfl⟩
  | .boolean true => exact ⟨_, _, rfl, rfl⟩
  | .boolean false => exact ⟨_, _, rfl, rfl⟩
  | .string _ => exact ⟨_, _, rfl, rfl⟩
  | .array [] => exact ⟨_, _, rfl, rfl⟩
  | .array (_ :: _) => exact ⟨_, _, rfl, rfl⟩
  | .object [] => exact ⟨_, _, rfl, rfl⟩
  | .object ((_, _) :: _) => exact ⟨_, _, rfl, rfl⟩
  | .integer n =>
    rw [chars, integerChars]
    split
    · exact ⟨_, _, rfl, rfl⟩
    · obtain ⟨first, rest, hdigits⟩ :=
        List.exists_cons_of_ne_nil (Nat.toDigits_ne_nil (n := n.natAbs) (b := 10))
      refine ⟨first, rest, hdigits, if_pos ?_⟩
      exact Layout.allDigits_toDigits n.natAbs first (hdigits ▸ List.mem_cons_self)
  | .float y hfinite =>
    obtain ⟨first, rest, hstart, hdigit⟩ := Layout.exists_digit_magnitude numberLayout
      (of_decide_eq_true hfinite)
    rw [chars, floatChars, Layout.write_eq, hstart]
    cases y.negative
    · exact ⟨first, rest, rfl, if_pos hdigit⟩
    · exact ⟨'-', first :: rest, rfl, rfl⟩

theorem opening_eq {x y : Literal} {rest rest' : List Char}
    (h : x.chars ++ rest = y.chars ++ rest') : x.opening = y.opening := by
  obtain ⟨first, others, hfirst, hopening⟩ := x.exists_opening
  obtain ⟨first', others', hfirst', hopening'⟩ := y.exists_opening
  rw [hfirst, hfirst'] at h
  obtain ⟨rfl, -⟩ := List.cons.inj h
  exact hopening.symm.trans hopening'

/-- No literal begins with the bracket that closes an array. -/
theorem chars_ne_bracket (x : Literal) (rest rest' : List Char) :
    x.chars ++ rest ≠ ']' :: rest' := by
  obtain ⟨first, others, hfirst, hopening⟩ := x.exists_opening
  rw [hfirst]
  intro h
  obtain ⟨rfl, -⟩ := List.cons.inj h
  match x, hopening with
  | .boolean true, h => exact absurd h (by decide)
  | .boolean false, h => exact absurd h (by decide)
  | .null, h | .integer _, h | .float _ _, h | .string _, h | .array _, h | .object _, h =>
    exact absurd h (by simp [opening])

/-! ## Literals -/

theorem closes_moreElements (xs : List Literal) (rest : List Char) :
    Closes (moreElements xs ++ rest) := by
  cases xs <;> exact closes_cons (by decide) _

theorem closes_moreEntries (entries : List (String × Literal)) (rest : List Char) :
    Closes (moreEntries entries ++ rest) := by
  cases entries <;> exact closes_cons (by decide) _

mutual

/-- The text of a literal determines the literal and what comes after it.  The induction is
on the literal: an element and an entry are followed by a comma or a bracket, which
continues no number. -/
theorem chars_append_inj : ∀ (x : Literal) {y : Literal} {rest rest' : List Char}, Closes rest →
    Closes rest' → x.chars ++ rest = y.chars ++ rest' → x = y ∧ rest = rest'
  | .null, y, _, _, _, _, h => by
    have hopening := opening_eq h
    match y, hopening, h with
    | .null, _, h => exact ⟨rfl, List.append_cancel_left h⟩
  | .boolean true, y, _, _, _, _, h => by
    have hopening := opening_eq h
    match y, hopening, h with
    | .boolean true, _, h => exact ⟨rfl, List.append_cancel_left h⟩
  | .boolean false, y, _, _, _, _, h => by
    have hopening := opening_eq h
    match y, hopening, h with
    | .boolean false, _, h => exact ⟨rfl, List.append_cancel_left h⟩
  | .integer m, y, _, _, hrest, hrest', h => by
    have hopening := opening_eq h
    match y, hopening, h with
    | .integer n, _, h =>
      obtain ⟨hchars, hafter⟩ := number_append_inj (all_isNumberChar_integerChars m)
        (all_isNumberChar_integerChars n) hrest hrest' h
      exact ⟨congrArg _ (integerChars_inj hchars), hafter⟩
    | .float z _, _, h =>
      obtain ⟨hchars, _⟩ := number_append_inj (all_isNumberChar_integerChars m)
        (Layout.all_isNumberChar_write ..) hrest hrest' h
      exact absurd hchars (integerChars_ne_floatChars m z)
  | .float x hx, y, _, _, hrest, hrest', h => by
    have hopening := opening_eq h
    match y, hopening, h with
    | .integer n, _, h =>
      obtain ⟨hchars, _⟩ := number_append_inj (Layout.all_isNumberChar_write ..)
        (all_isNumberChar_integerChars n) hrest hrest' h
      exact absurd hchars.symm (integerChars_ne_floatChars n x)
    | .float z hz, _, h =>
      obtain ⟨hchars, hafter⟩ := number_append_inj (Layout.all_isNumberChar_write ..)
        (Layout.all_isNumberChar_write ..) hrest hrest' h
      obtain rfl := floatChars_inj hx hz hchars
      exact ⟨rfl, hafter⟩
  | .string s, y, _, _, _, _, h => by
    have hopening := opening_eq h
    match y, hopening, h with
    | .string t, _, h =>
      obtain ⟨rfl, hafter⟩ := stringChars_append_inj h
      exact ⟨rfl, hafter⟩
  | .array [], y, _, _, _, _, h => by
    have hopening := opening_eq h
    match y, hopening, h with
    | .array [], _, h => exact ⟨rfl, List.append_cancel_left h⟩
    | .array (z :: zs), _, h =>
      simp only [chars, List.cons_append, List.append_assoc, List.cons.injEq, true_and] at h
      exact absurd h.symm (chars_ne_bracket _ _ _)
  | .array (x :: xs), y, _, _, _, _, h => by
    have hopening := opening_eq h
    match y, hopening, h with
    | .array [], _, h =>
      simp only [chars, List.cons_append, List.append_assoc, List.cons.injEq, true_and] at h
      exact absurd h (chars_ne_bracket _ _ _)
    | .array (z :: zs), _, h =>
      rw [chars, chars, List.cons_append, List.cons_append, List.append_assoc,
        List.append_assoc] at h
      obtain ⟨rfl, hmore⟩ := chars_append_inj x (closes_moreElements _ _)
        (closes_moreElements _ _) (List.cons.inj h).2
      obtain ⟨rfl, hafter⟩ := moreElements_append_inj xs hmore
      exact ⟨rfl, hafter⟩
  | .object [], y, _, _, _, _, h => by
    have hopening := opening_eq h
    match y, hopening, h with
    | .object [], _, h => exact ⟨rfl, List.append_cancel_left h⟩
    | .object ((_, _) :: _), _, h =>
      rw [chars, chars] at h
      cases h
  | .object ((key, x) :: rest), y, _, _, _, _, h => by
    have hopening := opening_eq h
    match y, hopening, h with
    | .object [], _, h =>
      rw [chars, chars] at h
      cases h
    | .object ((key', z) :: others), _, h =>
      rw [chars, chars] at h
      simp only [List.cons_append, List.append_assoc, List.cons.injEq, true_and] at h
      obtain ⟨rfl, hvalue⟩ := stringChars_append_inj h
      obtain ⟨rfl, hmore⟩ := chars_append_inj x (closes_moreEntries _ _)
        (closes_moreEntries _ _) (List.cons.inj hvalue).2
      obtain ⟨rfl, hafter⟩ := moreEntries_append_inj rest hmore
      exact ⟨rfl, hafter⟩

theorem moreElements_append_inj : ∀ (xs : List Literal) {ys : List Literal}
    {rest rest' : List Char}, moreElements xs ++ rest = moreElements ys ++ rest' →
      xs = ys ∧ rest = rest'
  | [], [], _, _, h => ⟨rfl, List.append_cancel_left h⟩
  | [], _ :: _, _, _, h => by
    rw [moreElements, moreElements] at h
    cases h
  | _ :: _, [], _, _, h => by
    rw [moreElements, moreElements] at h
    cases h
  | x :: xs, y :: ys, _, _, h => by
    rw [moreElements, moreElements, List.cons_append, List.cons_append, List.append_assoc,
      List.append_assoc] at h
    obtain ⟨rfl, hmore⟩ := chars_append_inj x (closes_moreElements _ _)
      (closes_moreElements _ _) (List.cons.inj h).2
    obtain ⟨rfl, hafter⟩ := moreElements_append_inj xs hmore
    exact ⟨rfl, hafter⟩

theorem moreEntries_append_inj : ∀ (entries : List (String × Literal))
    {others : List (String × Literal)} {rest rest' : List Char},
      moreEntries entries ++ rest = moreEntries others ++ rest' → entries = others ∧ rest = rest'
  | [], [], _, _, h => ⟨rfl, List.append_cancel_left h⟩
  | [], (_, _) :: _, _, _, h => by
    rw [moreEntries, moreEntries] at h
    cases h
  | (_, _) :: _, [], _, _, h => by
    rw [moreEntries, moreEntries] at h
    cases h
  | (key, x) :: entries, (key', y) :: others, _, _, h => by
    rw [moreEntries, moreEntries] at h
    simp only [List.cons_append, List.append_assoc, List.cons.injEq, true_and] at h
    obtain ⟨rfl, hvalue⟩ := stringChars_append_inj h
    obtain ⟨rfl, hmore⟩ := chars_append_inj x (closes_moreEntries _ _)
      (closes_moreEntries _ _) (List.cons.inj hvalue).2
    obtain ⟨rfl, hafter⟩ := moreEntries_append_inj entries hmore
    exact ⟨rfl, hafter⟩

end

/-- Two literals with one text are the same. -/
theorem text_inj {x y : Literal} (h : x.text = y.text) : x = y := by
  have hchars : x.chars ++ [] = y.chars ++ [] := by
    rw [List.append_nil, List.append_nil, ← String.toList_ofList (l := x.chars), ← text, h, text,
      String.toList_ofList]
  exact (chars_append_inj x closes_nil closes_nil hchars).1

end Literal

end AvroResolution
