import IspStream.Proofs.Records.Reading
import IspStream.Proofs.Text.Words
import IspStream.Script.Plan
import Mathlib.Data.List.Forall2
import Mathlib.Data.Nat.Digits.Lemmas

/-!
# The integers that parameters stand for

A parameter is an integer literal with white space around it.  What a literal denotes is said
without reading it: a numeral is worth its digits at their places (`Numeral`), one sign may
stand in front of it (`Signed`), and a literal is a decimal number, or a hexadecimal one
behind `0x` (`Literal`).

Digits are read from the left, and each one more multiplies what was read by the base.  For
the value by places, the same step takes the last digit off the text (`denotes_concat`), so
the induction is from the right end (`foldlM_eq_some_iff`).  No digit is a sign, and the `x`
of the mark is no decimal digit, so no text has two readings.

The print of a number is a numeral of it (`signed_print`), and so is the print behind more
zeros or with letters in the other case.  `integer_reads_literals` has both: what is read at
all, and that printing is undone.
-/

namespace IspStream

namespace Text.Integer

/-! ## The grammar of literals -/

/-- A character is the digit of a value, a letter in either case. -/
def Digit (base value : Nat) (character : Char) : Prop :=
  value < base ∧ character.toLower = Nat.digitChar value

/-- The digits of a text have a value at their places, the last one at the place of the
units. -/
def Denotes (base : Nat) (text : List Char) (value : Nat) : Prop :=
  ∃ digits, List.Forall₂ (Digit base) digits text.reverse ∧ Nat.ofDigits base digits = value

/-- A numeral of a value: at least one digit, and no other characters. -/
structure Numeral (base : Nat) (text : List Char) (value : Nat) : Prop where
  nonempty : text ≠ []
  denotes : Denotes base text value

/-- A numeral behind at most one sign. -/
inductive Signed (base : Nat) : List Char → Int → Prop where
  | unsigned {text : List Char} {value : Nat} (numeral : Numeral base text value) :
      Signed base text value
  | plus {text : List Char} {value : Nat} (numeral : Numeral base text value) :
      Signed base ('+' :: text) value
  | minus {text : List Char} {value : Nat} (numeral : Numeral base text value) :
      Signed base ('-' :: text) (-value)

/-- A literal of a value, whatever its size. -/
inductive Literal : List Char → Int → Prop where
  | hexadecimal {text : List Char} {value : Int} (number : Signed 16 text value) :
      Literal ('0' :: 'x' :: text) value
  | decimal {text : List Char} {value : Int} (unmarked : ¬['0', 'x'] <+: text)
      (number : Signed 10 text value) : Literal text value

/-- The values that fit a signed word of 64 bits. -/
def Fits (value : Int) : Prop := -2 ^ 63 ≤ value ∧ value < 2 ^ 63

instance (value : Int) : Decidable (Fits value) :=
  inferInstanceAs (Decidable (-2 ^ 63 ≤ value ∧ value < 2 ^ 63))

variable {base value : Nat} {character last : Char} {text front : List Char}

/-! ## Digits -/

theorem toUpper_digitChar : ∀ value < 16, (Nat.digitChar value).toUpper = Hex.digitChar value := by
  decide

theorem toLower_digitChar : ∀ value < 16, (Hex.digitChar value).toLower = Nat.digitChar value := by
  decide

theorem digit?_eq_some_iff (hbase : base ≤ 16) :
    digit? base character = some value ↔ Digit base value character := by
  rw [digit?, Option.filter_eq_some_iff, decide_eq_true_eq, and_comm]
  refine and_congr_right fun hlt => ?_
  have hvalue : value < 16 := by omega
  constructor
  · intro h
    calc character.toLower
      _ = character.toUpper.toLower := (toLower_toUpper character).symm
      _ = (Hex.digitChar value).toLower := by rw [(Hex.digitChar_of_digit? h).2]
      _ = Nat.digitChar value := toLower_digitChar value hvalue
  · intro h
    have hupper : character.toUpper = Hex.digitChar value := by
      rw [← toUpper_toLower, h, toUpper_digitChar value hvalue]
    rw [← Hex.digit?_toUpper, hupper, Hex.digit?_digitChar value hvalue]

/-- Only the case of a letter may differ. -/
theorem digit_toLower_iff : Digit base value character.toLower ↔ Digit base value character := by
  rw [Digit, Digit, toLower_toLower]

theorem digit_digitChar (hlt : value < base) (hbase : base ≤ 16) :
    Digit base value (Nat.digitChar value) := by
  have hvalue : value < 16 := by omega
  refine ⟨hlt, ?_⟩
  rw [← toLower_digitChar value hvalue, toLower_toLower]

/-! ## Reading numerals -/

theorem denotes_nil : Denotes base [] value ↔ value = 0 := by
  simp [Denotes, eq_comm]

/-- The last digit counts units, and the ones in front of it count bases. -/
theorem denotes_concat :
    Denotes base (front ++ [last]) value ↔
      ∃ high, Denotes base front high ∧ ∃ low, Digit base low last ∧ base * high + low = value := by
  simp only [Denotes, List.reverse_concat, List.forall₂_cons_right_iff]
  constructor
  · rintro ⟨digits, ⟨low, others, hlow, hothers, rfl⟩, rfl⟩
    refine ⟨_, ⟨others, hothers, rfl⟩, low, hlow, ?_⟩
    rw [Nat.ofDigits_cons, Nat.add_comm]
  · rintro ⟨high, ⟨others, hothers, rfl⟩, low, hlow, rfl⟩
    refine ⟨low :: others, ⟨low, others, hlow, hothers, rfl⟩, ?_⟩
    rw [Nat.ofDigits_cons, Nat.add_comm]

/-- Reading from the left gives the digits the values of their places. -/
theorem foldlM_eq_some_iff (hbase : base ≤ 16) :
    text.foldlM (fun value character => (digit? base character).map (base * value + ·)) 0 =
      some value ↔ Denotes base text value := by
  induction text using List.reverseRecOn generalizing value with
  | nil => simp [denotes_nil, eq_comm]
  | append_singleton front last ih =>
      simp only [List.foldlM_append, List.foldlM_cons, List.foldlM_nil, bind_pure, denotes_concat,
        Option.bind_eq_bind, Option.bind_eq_some_iff, Option.map_eq_some_iff, ih,
        digit?_eq_some_iff hbase]

theorem magnitude?_eq_some_iff (hbase : base ≤ 16) :
    magnitude? base text = some value ↔ Numeral base text value := by
  cases text with
  | nil => exact iff_of_false (fun h => nomatch h) fun h => h.nonempty rfl
  | cons first rest =>
      exact (foldlM_eq_some_iff hbase).trans ⟨fun h => ⟨List.cons_ne_nil _ _, h⟩, Numeral.denotes⟩

/-! ## Reading signs and literals -/

theorem Numeral.exists_digit (h : Numeral base text value) (hmem : character ∈ text) :
    ∃ digit, Digit base digit character := by
  obtain ⟨digits, hdigits, -⟩ := h.denotes
  obtain ⟨index, hindex, rfl⟩ := List.getElem_of_mem (List.mem_reverse.mpr hmem)
  exact ⟨_, hdigits.get (hdigits.length_eq ▸ hindex) hindex⟩

/-- Signs and digits are the characters of a number. -/
theorem Signed.cases_of_mem {number : Int} (h : Signed base text number)
    (hmem : character ∈ text) :
    character = '+' ∨ character = '-' ∨ ∃ digit, Digit base digit character := by
  cases h with
  | unsigned numeral => exact Or.inr (Or.inr (numeral.exists_digit hmem))
  | plus numeral =>
      rcases List.mem_cons.mp hmem with hsign | hrest
      · exact Or.inl hsign
      · exact Or.inr (Or.inr (numeral.exists_digit hrest))
  | minus numeral =>
      rcases List.mem_cons.mp hmem with hsign | hrest
      · exact Or.inr (Or.inl hsign)
      · exact Or.inr (Or.inr (numeral.exists_digit hrest))

theorem not_digit (hbase : base ≤ 16) (h : Hex.digit? character = none) (digit : Nat) :
    ¬Digit base digit character := by
  intro hdigit
  rw [← digit?_eq_some_iff hbase, digit?, h] at hdigit
  cases hdigit

theorem not_numeral_cons (hbase : base ≤ 16) (h : Hex.digit? character = none) :
    ¬Numeral base (character :: text) value := by
  intro hnumeral
  obtain ⟨digit, hdigit⟩ := hnumeral.exists_digit List.mem_cons_self
  exact not_digit hbase h digit hdigit

/-- What a sign makes of a numeral. -/
theorem map_magnitude?_eq_some_iff (hbase : base ≤ 16) {change : Int → Int} {number : Int} :
    Option.map change (magnitude? base text) = some number ↔
      ∃ value : Nat, Numeral base text value ∧ change value = number := by
  simp only [Option.map_eq_some_iff, Option.bind_eq_bind, Option.bind_eq_some_iff, Option.pure_def,
    Option.some.injEq, magnitude?_eq_some_iff hbase]
  constructor
  · rintro ⟨_, ⟨value, hvalue, rfl⟩, hnumber⟩
    exact ⟨value, hvalue, hnumber⟩
  · rintro ⟨value, hvalue, hnumber⟩
    exact ⟨value, ⟨value, hvalue, rfl⟩, hnumber⟩

theorem signed?_eq_some_iff (hbase : base ≤ 16) {number : Int} :
    signed? base text = some number ↔ Signed base text number := by
  unfold signed?
  split
  · rw [map_magnitude?_eq_some_iff hbase]
    constructor
    · rintro ⟨value, hnumeral, rfl⟩
      exact .minus hnumeral
    · intro h
      cases h with
      | unsigned numeral => exact absurd numeral (not_numeral_cons hbase (by decide))
      | minus numeral => exact ⟨_, numeral, rfl⟩
  · rw [map_magnitude?_eq_some_iff hbase]
    constructor
    · rintro ⟨value, hnumeral, rfl⟩
      exact .plus hnumeral
    · intro h
      cases h with
      | unsigned numeral => exact absurd numeral (not_numeral_cons hbase (by decide))
      | plus numeral => exact ⟨_, numeral, rfl⟩
  · rename_i hminus hplus
    rw [map_magnitude?_eq_some_iff hbase]
    constructor
    · rintro ⟨value, hnumeral, rfl⟩
      exact .unsigned hnumeral
    · intro h
      cases h with
      | unsigned numeral => exact ⟨_, numeral, rfl⟩
      | plus numeral => exact absurd rfl (hplus _)
      | minus numeral => exact absurd rfl (hminus _)

theorem Signed.ne_nil {number : Int} (h : Signed base text number) : text ≠ [] := by
  cases h with
  | unsigned numeral => exact numeral.nonempty
  | plus | minus => exact List.cons_ne_nil _ _

/-- A decimal number holds no letter, so it is not mistaken for a hexadecimal one. -/
theorem Signed.unmarked {number : Int} (h : Signed 10 text number) : ¬['0', 'x'] <+: text := by
  rintro ⟨rest, rfl⟩
  have hletter : 'x' ∈ ['0', 'x'] ++ rest := by simp
  rcases h.cases_of_mem hletter with hsign | hsign | ⟨digit, hdigit⟩
  · exact absurd hsign (by decide)
  · exact absurd hsign (by decide)
  · exact not_digit (by decide) (by decide) digit hdigit

theorem literal_marked_iff {number : Int} :
    Literal ('0' :: 'x' :: text) number ↔ Signed 16 text number := by
  constructor
  · intro h
    cases h with
    | hexadecimal signed => exact signed
    | decimal unmarked signed => exact absurd ⟨text, rfl⟩ unmarked
  · exact .hexadecimal

theorem fits_iff {number : Int} : minimum ≤ number ∧ number ≤ maximum ↔ Fits number := by
  unfold minimum maximum Fits
  omega

theorem literal?_eq_some_iff {number : Int} :
    literal? text = some number ↔ Literal text number ∧ Fits number := by
  unfold literal?
  rw [Option.filter_eq_some_iff, Bool.and_eq_true, decide_eq_true_eq, decide_eq_true_eq, fits_iff]
  refine and_congr_left fun _ => ?_
  split
  · rw [signed?_eq_some_iff (by decide), literal_marked_iff]
  · -- a text that is marked and comes here is the bare mark, and has no number behind it
    rename_i hmarked
    rw [signed?_eq_some_iff (by decide)]
    constructor
    · intro h
      exact .decimal h.unmarked h
    · intro h
      cases h with
      | hexadecimal signed =>
          obtain ⟨first, rest, rfl⟩ := List.exists_cons_of_ne_nil signed.ne_nil
          exact (hmarked first rest rfl).elim
      | decimal _ signed => exact signed

/-- There is no white space in a literal. -/
theorem Signed.solid (hbase : base ≤ 16) {number : Int} (h : Signed base text number) :
    Solid text := by
  intro character hmem
  rcases h.cases_of_mem hmem with rfl | rfl | ⟨digit, hdigit⟩
  · decide
  · decide
  · have hread := (digit?_eq_some_iff hbase).mpr hdigit
    refine isBlank_of_isDigit (Option.isSome_iff_exists.mpr ⟨digit, ?_⟩)
    exact (Option.filter_eq_some_iff.mp hread).1

theorem Literal.solid {number : Int} (h : Literal text number) : Solid text := by
  cases h with
  | hexadecimal signed =>
      have hmark : isBlank '0' = false ∧ isBlank 'x' = false := by decide
      simpa [Solid, hmark] using signed.solid (by decide)
  | decimal _ signed => exact signed.solid (by decide)

theorem Literal.trim_eq {number : Int} (h : Literal text number) : trim text = text := by
  have hne : text ≠ [] := by
    cases h with
    | hexadecimal => exact List.cons_ne_nil _ _
    | decimal _ signed => exact signed.ne_nil
  simpa using trim_append_of_solid h.solid hne []

/-! ## Printing -/

/-- The print of a number: a minus sign if it is negative, then as many zeros as are asked for,
then its digits. -/
def print (base zeros : Nat) (number : Int) : List Char :=
  (if number < 0 then ['-'] else []) ++
    (List.replicate zeros '0' ++ Nat.toDigits base number.natAbs)

/-- Without more zeros, the decimal print is the usual text of an integer. -/
theorem print_ten (number : Int) : print 10 0 number = (toString number).toList := by
  change _ = number.repr.toList
  rw [print, Int.repr_eq_if, List.replicate_zero, List.nil_append]
  split
  · rename_i hnegative
    rw [if_neg (by omega), String.toList_append, Nat.toList_repr,
      show number.natAbs = (-number).toNat by omega]
    rfl
  · rename_i hnonnegative
    rw [if_pos (by omega), Nat.toList_repr, show number.natAbs = number.toNat by omega]
    rfl

theorem denotes_toDigits (hone : 1 < base) (hbase : base ≤ 16) (value : Nat) :
    Denotes base (Nat.toDigits base value) value := by
  induction value using Nat.strong_induction_on with
  | h value ih =>
      rw [Nat.toDigits_eq_if hone]
      split
      · rename_i hlt
        rw [← List.nil_append [_], denotes_concat]
        exact ⟨0, denotes_nil.mpr rfl, value, digit_digitChar hlt hbase, by simp⟩
      · have hquotient := ih (value / base) (Nat.div_lt_self (by omega) hone)
        have hlow := digit_digitChar (Nat.mod_lt value (by omega)) hbase
        exact denotes_concat.mpr ⟨_, hquotient, _, hlow, Nat.div_add_mod value base⟩

theorem Denotes.zero_cons (hone : 1 < base) (h : Denotes base text value) :
    Denotes base ('0' :: text) value := by
  obtain ⟨digits, hdigits, hvalue⟩ := h
  have hzero : Digit base 0 '0' := ⟨by omega, rfl⟩
  refine ⟨digits ++ [0], ?_, by rw [Nat.ofDigits_append_zero, hvalue]⟩
  rw [List.reverse_cons]
  exact List.rel_append hdigits (.cons hzero .nil)

/-- Zeros in front of a numeral count nothing. -/
theorem Denotes.zeros_append (hone : 1 < base) (zeros : Nat) (h : Denotes base text value) :
    Denotes base (List.replicate zeros '0' ++ text) value := by
  induction zeros with
  | zero => exact h
  | succ zeros ih => exact ih.zero_cons hone

theorem Denotes.of_toLower (h : Denotes base (text.map Char.toLower) value) :
    Denotes base text value := by
  simpa only [Denotes, ← List.map_reverse, List.forall₂_map_right_iff, digit_toLower_iff] using h

theorem Numeral.of_toLower (h : Numeral base (text.map Char.toLower) value) :
    Numeral base text value :=
  ⟨by simpa using h.nonempty, h.denotes.of_toLower⟩

theorem signed_print (hone : 1 < base) (hbase : base ≤ 16) (zeros : Nat) (number : Int) :
    Signed base (print base zeros number) number := by
  have hnumeral : Numeral base (List.replicate zeros '0' ++ Nat.toDigits base number.natAbs)
      number.natAbs :=
    ⟨by simp [Nat.toDigits_ne_nil], (denotes_toDigits hone hbase _).zeros_append hone zeros⟩
  unfold print
  split
  · have hsigned := Signed.minus hnumeral
    rwa [show -(number.natAbs : Int) = number by omega] at hsigned
  · have hsigned := Signed.unsigned hnumeral
    rwa [show (number.natAbs : Int) = number by omega] at hsigned

/-- The signs have no other case. -/
theorem Signed.of_toLower {number : Int} (h : Signed base (text.map Char.toLower) number) :
    Signed base text number := by
  generalize hlower : text.map Char.toLower = lower at h
  cases h with
  | unsigned numeral =>
      rw [← hlower] at numeral
      exact .unsigned numeral.of_toLower
  | plus numeral =>
      obtain ⟨sign, rest, rfl, hsign, rfl⟩ := List.map_eq_cons_iff.mp hlower
      obtain rfl : sign = '+' :=
        eq_of_toUpper_eq (by decide) (by decide) (by rw [← toUpper_toLower, hsign])
      exact .plus numeral.of_toLower
  | minus numeral =>
      obtain ⟨sign, rest, rfl, hsign, rfl⟩ := List.map_eq_cons_iff.mp hlower
      obtain rfl : sign = '-' :=
        eq_of_toUpper_eq (by decide) (by decide) (by rw [← toUpper_toLower, hsign])
      exact .minus numeral.of_toLower

end Text.Integer

namespace Script

open Text (Blank trim)
open Text.Integer (Signed Literal Fits print signed_print literal?_eq_some_iff)

variable {text leading trailing : List Char} {value : Int}

theorem integer_eq_ok_iff : integer text = .ok value ↔ Literal (trim text) value ∧ Fits value := by
  rw [← literal?_eq_some_iff, integer]
  cases Text.Integer.literal? (trim text) <;> simp

/-- A literal is read with any white space around it. -/
theorem integer_of_literal (hleading : Blank leading) (htrailing : Blank trailing)
    (hliteral : Literal text value) (hfits : Fits value) :
    integer (leading ++ text ++ trailing) = .ok value := by
  rw [integer_eq_ok_iff, Text.trim_append_right _ htrailing, Text.trim_append_left hleading,
    hliteral.trim_eq]
  exact ⟨hliteral, hfits⟩

theorem integer_eq_error (h : ¬∃ value, Literal (trim text) value ∧ Fits value) :
    integer text = .error (.invalidInteger (String.ofList (trim text))) := by
  cases hliteral : Text.Integer.literal? (trim text) with
  | none => rw [integer, hliteral]
  | some value => exact absurd ⟨value, literal?_eq_some_iff.mp hliteral⟩ h

/-- **A parameter is read if and only if it is a literal that fits a word.**  White space
around it does not count, and the value is the one that the literal denotes.  Any other
parameter is refused, and the refusal quotes it without the white space.  So what a number is
printed as is read back, in decimal and behind `0x` in hexadecimal with letters in any mixture
of cases, whatever zeros stand in front of the digits. -/
theorem integer_reads_literals :
    (∀ text value, integer text = .ok value ↔ Literal (trim text) value ∧ Fits value) ∧
      (∀ text, (¬∃ value, Literal (trim text) value ∧ Fits value) →
        integer text = .error (.invalidInteger (String.ofList (trim text)))) ∧
      ∀ value, Fits value → ∀ leading trailing, Blank leading → Blank trailing → ∀ zeros,
        integer (leading ++ print 10 zeros value ++ trailing) = .ok value ∧
          ∀ digits, digits.map Char.toLower = print 16 zeros value →
            integer (leading ++ '0' :: 'x' :: digits ++ trailing) = .ok value := by
  refine ⟨fun _ _ => integer_eq_ok_iff, fun _ => integer_eq_error, ?_⟩
  intro value hfits leading trailing hleading htrailing zeros
  constructor
  · have hprint : Signed 10 (print 10 zeros value) value :=
      signed_print (by decide) (by decide) zeros value
    exact integer_of_literal hleading htrailing (.decimal hprint.unmarked hprint) hfits
  · intro digits hdigits
    have hprint : Signed 16 (digits.map Char.toLower) value := by
      rw [hdigits]
      exact signed_print (by decide) (by decide) zeros value
    exact integer_of_literal hleading htrailing (.hexadecimal hprint.of_toLower) hfits

theorem integer_reads_literals_mixed_case :
    Fits (-0xAB) ∧ Blank ['\u00a0', ' '] ∧ Blank ['\t'] ∧
      "-00aB".toList.map Char.toLower = print 16 2 (-0xAB) ∧
      integer (['\u00a0', ' '] ++ '0' :: 'x' :: "-00aB".toList ++ ['\t']) = .ok (-0xAB) :=
  have hprinted : "-00aB".toList.map Char.toLower = print 16 2 (-0xAB) := by decide
  ⟨by decide, by decide, by decide, hprinted,
    (integer_reads_literals.2.2 (-0xAB) (by decide) ['\u00a0', ' '] ['\t'] (by decide) (by decide)
      2).2 "-00aB".toList hprinted⟩

end Script

end IspStream
