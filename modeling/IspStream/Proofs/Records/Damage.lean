import IspStream.Proofs.Records.Reading
import Mathlib.Data.UInt

/-!
# One wrong character is noticed

Every accepted line has an odd number of characters, so a character too many or too few is
noticed by its length alone.  A character in place of another one is noticed by the
checksum: the two lines differ in one digit, therefore in one byte, and then their bytes
cannot both sum to zero.

The exception is a letter in its other case, which changes no digit (`parse_edited`).
-/

namespace IspStream

namespace Text

/-! ## One digit in place of another -/

namespace Hex

/-- Pairs of digits are different bytes unless they agree in both digits. -/
theorem ofNat_pair_inj {high low otherHigh otherLow : Nat} (hhigh : high < 16) (hlow : low < 16)
    (hotherHigh : otherHigh < 16) (hotherLow : otherLow < 16)
    (h : UInt8.ofNat (16 * high + low) = UInt8.ofNat (16 * otherHigh + otherLow)) :
    high = otherHigh ∧ low = otherLow := by
  rw [← UInt8.toNat_inj, UInt8.toNat_ofNat', UInt8.toNat_ofNat'] at h
  omega

/-- Digits that were read are digits. -/
theorem isDigit_of_bytes? {digits : List Char} {values : List UInt8}
    (h : bytes? digits = some values) {character : Char} (hmem : character ∈ digits) :
    isDigit character = true := by
  have hwritten : character.toUpper ∈ bytes values := by
    rw [bytes_of_bytes? h]
    exact List.mem_map_of_mem hmem
  rw [← isDigit_toUpper]
  exact isDigit_of_mem_bytes hwritten

/-- One digit in place of another one changes exactly one byte. -/
theorem exists_byte_of_replaced {front back : List Char} {old new : Char}
    {values others : List UInt8} (hvalues : bytes? (front ++ old :: back) = some values)
    (hothers : bytes? (front ++ new :: back) = some others) (hdigit : digit? new ≠ digit? old) :
    ∃ before byte other behind, values = before ++ byte :: behind ∧
      others = before ++ other :: behind ∧ other ≠ byte := by
  induction front using bytes?.induct generalizing values others with
  | case1 =>
      -- the high digit of a pair
      cases back with
      | nil => cases hvalues
      | cons low rest =>
          obtain ⟨high, value, bytes, hhigh, hlow, hbytes, rfl⟩ := bytes?_cons_cons.mp hvalues
          obtain ⟨otherHigh, same, copy, hother, hsame, hcopy, rfl⟩ := bytes?_cons_cons.mp hothers
          obtain rfl : bytes = copy := Option.some.inj (hbytes.symm.trans hcopy)
          refine ⟨[], _, _, bytes, rfl, rfl, fun heq => hdigit ?_⟩
          rw [hother, hhigh, (ofNat_pair_inj (digitChar_of_digit? hother).1
            (digitChar_of_digit? hsame).1 (digitChar_of_digit? hhigh).1
            (digitChar_of_digit? hlow).1 heq).1]
  | case2 high =>
      obtain ⟨value, low, bytes, hhigh, hlow, hbytes, rfl⟩ := bytes?_cons_cons.mp hvalues
      obtain ⟨same, otherLow, copy, hsame, hother, hcopy, rfl⟩ := bytes?_cons_cons.mp hothers
      obtain rfl : bytes = copy := Option.some.inj (hbytes.symm.trans hcopy)
      refine ⟨[], _, _, bytes, rfl, rfl, fun heq => hdigit ?_⟩
      rw [hother, hlow, (ofNat_pair_inj (digitChar_of_digit? hsame).1
        (digitChar_of_digit? hother).1 (digitChar_of_digit? hhigh).1
        (digitChar_of_digit? hlow).1 heq).2]
  | case3 high low rest ih =>
      obtain ⟨highValue, lowValue, bytes, hhigh, hlow, hbytes, rfl⟩ := bytes?_cons_cons.mp hvalues
      obtain ⟨sameHigh, sameLow, copy, hsameHigh, hsameLow, hcopy, rfl⟩ :=
        bytes?_cons_cons.mp hothers
      obtain rfl : highValue = sameHigh := Option.some.inj (hhigh.symm.trans hsameHigh)
      obtain rfl : lowValue = sameLow := Option.some.inj (hlow.symm.trans hsameLow)
      obtain ⟨before, byte, other, behind, rfl, rfl, hne⟩ := ih hbytes hcopy
      exact ⟨_ :: before, byte, other, behind, rfl, rfl, hne⟩

end Hex

end Text

namespace Record

/-! ## Edits of a line -/

/-- The second line is the first one with one character replaced, removed or inserted. -/
inductive Edited : List Char → List Char → Prop where
  /-- One character is replaced by a different one. -/
  | replaced (front : List Char) (old new : Char) (back : List Char) (changed : new ≠ old) :
      Edited (front ++ old :: back) (front ++ new :: back)
  /-- One character is removed. -/
  | removed (front : List Char) (old : Char) (back : List Char) :
      Edited (front ++ old :: back) (front ++ back)
  /-- One character is inserted. -/
  | inserted (front : List Char) (new : Char) (back : List Char) :
      Edited (front ++ back) (front ++ new :: back)

/-- The second line is the first one with one letter among its digits in the other case. -/
inductive Recased : List Char → List Char → Prop where
  /-- A letter in upper case is replaced by the one in lower case. -/
  | lowered (front : List Char) (letter : Char) (back : List Char)
      (digit : Text.Hex.isDigit letter = true) (changed : letter.toLower ≠ letter) :
      Recased (front ++ letter :: back) (front ++ letter.toLower :: back)
  /-- A letter in lower case is replaced by the one in upper case. -/
  | raised (front : List Char) (letter : Char) (back : List Char)
      (digit : Text.Hex.isDigit letter = true) (changed : letter.toUpper ≠ letter) :
      Recased (front ++ letter :: back) (front ++ letter.toUpper :: back)

variable {content edited front back : List Char} {old new : Char} {record other : Record}

theorem recased_of_toUpper (hdigit : Text.Hex.isDigit old = true) (hchanged : new ≠ old)
    (h : new.toUpper = old.toUpper) : Recased (front ++ old :: back) (front ++ new :: back) := by
  rcases Text.eq_toUpper_or_eq_toLower h with rfl | rfl
  · exact .raised front old back hdigit hchanged
  · exact .lowered front old back hdigit hchanged

/-- The other case of a letter makes no difference to reading. -/
theorem Recased.parse_eq (h : Recased content edited) : parse edited = parse content := by
  rw [← parse_map_toUpper edited, ← parse_map_toUpper content]
  cases h <;> simp

/-! ## Edited lines are refused -/

/-- An accepted line has an odd number of characters. -/
theorem length_of_parse (h : parse content = .ok record) :
    content.length = 11 + 2 * record.data.length := by
  rw [← length_line, ← (parse_eq_ok_iff.mp h).2, List.length_map]

/-- The bytes of a record sum to zero. -/
theorem sum_bytes (record : Record) : record.bytes.sum = 0 := by
  have hchecksum : record.checksum = -record.body.sum := rfl
  rw [bytes, List.sum_append, List.sum_singleton, hchecksum, UInt8.add_right_neg]

/-- Bytes with the same sum do not differ in one place only. -/
theorem eq_of_sum_eq (before behind : List UInt8) {byte other : UInt8}
    (h : (before ++ byte :: behind).sum = (before ++ other :: behind).sum) : byte = other := by
  rw [List.sum_append, List.sum_append, UInt8.add_right_inj, List.sum_cons, List.sum_cons,
    UInt8.add_left_inj] at h
  exact h

/-- Two accepted lines that differ in one character are spellings of the same line. -/
theorem recased_of_parse (h : parse (front ++ old :: back) = .ok record)
    (hother : parse (front ++ new :: back) = .ok other) (hchanged : new ≠ old) :
    Recased (front ++ old :: back) (front ++ new :: back) := by
  obtain ⟨-, digits, hcontent, hdigits⟩ := exists_digits_of_parse h
  obtain ⟨-, others, hreplaced, hothers⟩ := exists_digits_of_parse hother
  cases front with
  | nil =>
      -- the start code cannot be replaced
      obtain ⟨rfl, -⟩ := List.cons.inj hcontent
      exact absurd (List.cons.inj hreplaced).1 hchanged
  | cons start more =>
      obtain ⟨-, rfl⟩ := List.cons.inj hcontent
      obtain ⟨-, rfl⟩ := List.cons.inj hreplaced
      have hold : Text.Hex.isDigit old = true :=
        Text.Hex.isDigit_of_bytes? hdigits (List.mem_append_right _ List.mem_cons_self)
      have hdigit : Text.Hex.digit? new = Text.Hex.digit? old := by
        by_contra hne
        obtain ⟨before, byte, wrong, behind, hbytes, hwrong, hdiffer⟩ :=
          Text.Hex.exists_byte_of_replaced hdigits hothers hne
        refine hdiffer (eq_of_sum_eq before behind ?_)
        rw [← hwrong, ← hbytes, sum_bytes, sum_bytes]
      obtain ⟨value, hvalue⟩ := Option.isSome_iff_exists.mp hold
      refine recased_of_toUpper hold hchanged ?_
      rw [← (Text.Hex.digitChar_of_digit? hvalue).2,
        ← (Text.Hex.digitChar_of_digit? (hdigit.trans hvalue)).2]

/-- **A single wrong character is noticed.**  An accepted line with one character replaced,
removed or inserted is not accepted, except that a letter may be replaced by the same letter
in the other case, and then the line is still that of the same record. -/
theorem parse_edited (h : parse content = .ok record) (hedited : Edited content edited) :
    (Recased content edited → parse edited = .ok record) ∧
      (¬Recased content edited → ∃ fault, parse edited = .error fault) := by
  refine ⟨fun hrecased => hrecased.parse_eq.trans h, fun hother => ?_⟩
  cases hparse : parse edited with
  | error fault => exact ⟨fault, rfl⟩
  | ok second =>
      have hlength := length_of_parse h
      have hsecond := length_of_parse hparse
      cases hedited with
      | replaced front old new back hchanged =>
          exact absurd (recased_of_parse h hparse hchanged) hother
      | removed front old back =>
          simp only [List.length_append, List.length_cons] at hlength hsecond
          omega
      | inserted front new back =>
          simp only [List.length_append, List.length_cons] at hlength hsecond
          omega

/-- A letter of a checksum in lower case, and a digit that is missing in front of it. -/
theorem parse_edited_checksum :
    parse (":010002001".toList ++ '2' :: "EB".toList) = .ok ⟨2, .data, [0x12]⟩ ∧
      parse (":0100020012".toList ++ 'e' :: "B".toList) = .ok ⟨2, .data, [0x12]⟩ ∧
      ∃ fault, parse (":010002001".toList ++ "EB".toList) = .error fault := by
  have hline : parse (":010002001".toList ++ '2' :: "EB".toList) = .ok ⟨2, .data, [0x12]⟩ := by
    decide +kernel
  refine ⟨hline, ?_, ?_⟩
  · exact (parse_edited hline (.replaced ":0100020012".toList 'E' 'e' "B".toList (by decide))).1
      (.lowered ":0100020012".toList 'E' "B".toList (by decide) (by decide))
  · exact (parse_edited hline (.removed ":010002001".toList '2' "EB".toList)).2 fun hrecased =>
      absurd hrecased.parse_eq (by decide +kernel)

end Record

end IspStream
