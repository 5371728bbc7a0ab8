import IspStream.Proofs.Records.RoundTrip
import IspStream.Proofs.Text.Letters

/-!
# An accepted line is printed again

Reading a line keeps everything but the case of its letters.  The length byte and the
checksum are not kept as such, but both follow from the rest, so that the bytes of an
accepted line are those of the record (`bytes_of_ofBytes`), and their digits in upper case
are the line (`bytes_of_bytes?`).  `parse_eq_ok_iff` puts this together: the lines of a
record that is well formed are its printed line in any mixture of cases, and no other
lines are accepted.

`print_parse_inverse` states the round trip in both directions.
-/

namespace IspStream

/-! ## Digits in either case -/

namespace Text

namespace Hex

@[simp] theorem digit?_toUpper (character : Char) :
    digit? character.toUpper = digit? character := by
  refine forall_of_ascii (motive := fun character => digit? character.toUpper = digit? character)
    character (by decide) fun hupper _ => ?_
  rw [hupper]

@[simp] theorem isDigit_toUpper (character : Char) :
    isDigit character.toUpper = isDigit character := by
  rw [isDigit, isDigit, digit?_toUpper]

/-- A digit is written again in upper case. -/
theorem digitChar_of_digit? {character : Char} {value : Nat} (h : digit? character = some value) :
    value < 16 ∧ digitChar value = character.toUpper := by
  have hascii : character.toNat < 0x80 := by
    have := toNat_of_isDigit (show isDigit character = true by rw [isDigit, h]; rfl)
    omega
  have hall : ∀ code < 0x80, (digit? (Char.ofNat code)).all fun value =>
      decide (value < 16 ∧ digitChar value = (Char.ofNat code).toUpper) := by
    decide
  have hcode := hall character.toNat hascii
  rw [Char.ofNat_toNat, h] at hcode
  exact of_decide_eq_true hcode

/-! ## Pairs of digits -/

theorem bytes?_cons_cons {high low : Char} {rest : List Char} {values : List UInt8} :
    bytes? (high :: low :: rest) = some values ↔
      ∃ highValue lowValue others, digit? high = some highValue ∧ digit? low = some lowValue ∧
        bytes? rest = some others ∧ values = UInt8.ofNat (16 * highValue + lowValue) :: others := by
  simp only [bytes?, Option.bind_eq_bind, Option.bind_eq_some_iff, Option.pure_def,
    Option.some.injEq]
  constructor
  · rintro ⟨highValue, hhigh, lowValue, hlow, others, hothers, rfl⟩
    exact ⟨highValue, lowValue, others, hhigh, hlow, hothers, rfl⟩
  · rintro ⟨highValue, lowValue, others, hhigh, hlow, hothers, rfl⟩
    exact ⟨highValue, hhigh, lowValue, hlow, others, hothers, rfl⟩

theorem byte_ofNat {highValue lowValue : Nat} (hhigh : highValue < 16) (hlow : lowValue < 16) :
    byte (UInt8.ofNat (16 * highValue + lowValue)) = [digitChar highValue, digitChar lowValue] := by
  have hvalue : (UInt8.ofNat (16 * highValue + lowValue)).toNat = 16 * highValue + lowValue := by
    rw [UInt8.toNat_ofNat']
    omega
  rw [byte, hvalue, show (16 * highValue + lowValue) / 16 = highValue by omega,
    show (16 * highValue + lowValue) % 16 = lowValue by omega]

/-- Digits that were read are written again in upper case. -/
theorem bytes_of_bytes? {digits : List Char} {values : List UInt8}
    (h : bytes? digits = some values) : bytes values = digits.map Char.toUpper := by
  induction digits using bytes?.induct generalizing values with
  | case1 =>
      cases h
      rfl
  | case2 character => cases h
  | case3 high low rest ih =>
      obtain ⟨highValue, lowValue, others, hhigh, hlow, hothers, rfl⟩ := bytes?_cons_cons.mp h
      obtain ⟨hhighLt, hhighChar⟩ := digitChar_of_digit? hhigh
      obtain ⟨hlowLt, hlowChar⟩ := digitChar_of_digit? hlow
      rw [bytes, List.flatMap_cons, byte_ofNat hhighLt hlowLt, ← bytes, ih hothers, hhighChar,
        hlowChar]
      rfl

theorem bytes?_map_toUpper (digits : List Char) :
    bytes? (digits.map Char.toUpper) = bytes? digits := by
  induction digits using bytes?.induct with
  | case1 | case2 character => rfl
  | case3 high low rest ih =>
      simp only [List.map_cons, bytes?, digit?_toUpper, ih]

end Hex

end Text

namespace Record

/-! ## What an accepted line holds -/

/-- Case makes no difference to reading. -/
theorem parse_map_toUpper (content : List Char) :
    parse (content.map Char.toUpper) = parse content := by
  cases content with
  | nil => rfl
  | cons first digits =>
      rw [List.map_cons]
      by_cases hstart : first = ':'
      · subst hstart
        have hdigits : (digits.map Char.toUpper).all Text.Hex.isDigit =
            digits.all Text.Hex.isDigit := by
          simp [List.all_map, Function.comp_def]
        change ofDigits (digits.map Char.toUpper) = ofDigits digits
        rw [ofDigits, ofDigits, hdigits, List.length_map, Text.Hex.bytes?_map_toUpper]
      · have hupper : first.toUpper ≠ ':' := fun h =>
          hstart (Text.eq_of_toUpper_eq (by decide) (by decide) h)
        unfold parse
        split
        · rename_i heq
          exact absurd (List.cons.inj heq).1 hupper
        · split
          · rename_i heq
            exact absurd (List.cons.inj heq).1 hstart
          · rfl

/-- Two bytes are those of the number that they stand for. -/
theorem bigEndian_address (high low : UInt8) :
    bigEndian 2 (UInt16.ofNat (ofBigEndian [high, low])).toNat = [high, low] := by
  have hhigh := high.toNat_lt
  have hlow := low.toNat_lt
  have hvalue : ofBigEndian [high, low] = 256 * high.toNat + low.toNat := by
    simp [ofBigEndian]
  rw [hvalue, UInt16.toNat_ofNat', Nat.mod_eq_of_lt (by omega), bigEndian_two,
    show (256 * high.toNat + low.toNat) / 256 = high.toNat by omega, UInt8.ofNat_toNat]
  congr 2
  rw [← UInt8.toNat_inj, UInt8.toNat_ofNat']
  omega

/-- The bytes of a record are known from its parts. -/
theorem bytes_ofParts {length high low code last : UInt8} {data : List UInt8}
    (hlength : data.length = length.toNat)
    (hlast : IspStream.checksum (length :: high :: low :: code :: data) = last) :
    (Record.mk (UInt16.ofNat (ofBigEndian [high, low])) (Kind.ofCode code) data).bytes =
      length :: high :: low :: code :: (data ++ [last]) := by
  have hbody : (Record.mk (UInt16.ofNat (ofBigEndian [high, low])) (Kind.ofCode code) data).body =
      length :: high :: low :: code :: data := by
    rw [body, bigEndian_address, hlength, UInt8.ofNat_toNat, Kind.code_ofCode]
    rfl
  rw [bytes, checksum, hbody, hlast]
  rfl

/-- Accepted bytes are those of the record. -/
theorem bytes_of_ofBytes {values : List UInt8} {record : Record}
    (h : ofBytes values = .ok record) : record.WellFormed ∧ record.bytes = values := by
  unfold ofBytes at h
  split at h
  · rename_i length high low code rest
    split at h
    · cases h
    · rename_i hcount
      simp only at h
      split at h
      · cases h
      · rename_i hchecksum
        split at h
        · cases h
        · rename_i haddress
          cases h
          rcases List.eq_nil_or_concat rest with rfl | ⟨data, last, rfl⟩
          · exact absurd hcount (by simp)
          · have hlength : data.length = length.toNat := by
              simp only [List.concat_eq_append, List.length_cons, List.length_append,
                List.length_nil, ne_eq, Classical.not_not] at hcount
              omega
            have hlast : IspStream.checksum (length :: high :: low :: code :: data) = last := by
              have hsplit : length :: high :: low :: code :: data.concat last =
                  (length :: high :: low :: code :: data) ++ [last] := by
                simp
              rw [hsplit, List.dropLast_concat, List.getLastD_concat] at hchecksum
              exact Classical.not_not.mp hchecksum
            rw [List.concat_eq_append, List.dropLast_concat]
            refine ⟨⟨?_, ?_, fun hkind => ?_⟩, bytes_ofParts hlength hlast⟩
            · have := length.toNat_lt
              simp only
              omega
            · simp
            · have htwo : length = 2 := Classical.not_not.mp fun hne => haddress ⟨hkind, hne⟩
              rw [htwo] at hlength
              exact hlength
  · cases h

/-- An accepted line is a colon and the digits of the record's bytes. -/
theorem exists_digits_of_parse {content : List Char} {record : Record}
    (h : parse content = .ok record) :
    record.WellFormed ∧
      ∃ digits, content = ':' :: digits ∧ Text.Hex.bytes? digits = some record.bytes := by
  unfold parse at h
  split at h
  · rename_i digits
    unfold ofDigits at h
    repeat' split at h
    all_goals try cases h
    rename_i values hvalues
    obtain ⟨hformed, hbytes⟩ := bytes_of_ofBytes h
    exact ⟨hformed, digits, rfl, by rw [hvalues, hbytes]⟩
  · cases h

/-- The accepted lines are the printed ones, with letters of either case. -/
theorem parse_eq_ok_iff {content : List Char} {record : Record} :
    parse content = .ok record ↔ record.WellFormed ∧ content.map Char.toUpper = record.line := by
  constructor
  · intro h
    obtain ⟨hformed, digits, rfl, hdigits⟩ := exists_digits_of_parse h
    refine ⟨hformed, ?_⟩
    rw [line, Text.Hex.bytes_of_bytes? hdigits]
    rfl
  · rintro ⟨hformed, hline⟩
    rw [← parse_map_toUpper, hline]
    exact hformed.parse_line

/-! ## The round trip -/

theorem print_of_parse {content : List Char} {record : Record} (h : parse content = .ok record) :
    print record = .ok (content.map Char.toUpper) := by
  obtain ⟨hformed, hline⟩ := parse_eq_ok_iff.mp h
  rw [hline]
  exact print_of_length_le hformed.length_le

theorem print_eq_error_iff {record : Record} :
    print record = .error .tooLong ↔ 255 < record.data.length := by
  unfold print
  split
  · exact iff_of_true rfl ‹_›
  · exact iff_of_false nofun ‹_›

theorem length_line (record : Record) : record.line.length = 11 + 2 * record.data.length := by
  simp only [line, List.length_cons, Text.Hex.length_bytes, bytes, List.length_append, length_body,
    List.length_nil]
  omega

/-- The address records are those with the type codes two and four. -/
theorem Kind.isAddress_ofCode (code : UInt8) :
    (Kind.ofCode code).isAddress = true ↔ code = 2 ∨ code = 4 := by
  unfold Kind.ofCode
  repeat' split
  all_goals simp_all [Kind.isAddress]

/-- **Printing and reading undo each other.**  Only a payload of more than 255 bytes has no
line.  Any other record has one, which comes back with the kind that its type code stands
for, unless that is an address record whose payload is not two bytes long.  The other way
round, an accepted line is printed again in upper case. -/
theorem print_parse_inverse :
    (∀ (address : UInt16) (kind : Kind) (data : List UInt8),
      (print ⟨address, kind, data⟩ = .error .tooLong ↔ 255 < data.length) ∧
      (data.length ≤ 255 → ∃ content, print ⟨address, kind, data⟩ = .ok content ∧
        content.length = 11 + 2 * data.length ∧
        if (kind.code = 2 ∨ kind.code = 4) ∧ data.length ≠ 2 then
          parse content = .error (.addressLength data.length)
        else
          ∃ record, parse content = .ok record ∧ record.address = address ∧
            record.kind = Kind.ofCode kind.code ∧ record.data = data ∧
            record.checksum = IspStream.checksum
              (UInt8.ofNat data.length :: bigEndian 2 address.toNat ++ kind.code :: data))) ∧
    ∀ content record, parse content = .ok record →
      print record = .ok (content.map Char.toUpper) := by
  refine ⟨fun address kind data => ⟨print_eq_error_iff, fun hlength => ?_⟩,
    fun content record => print_of_parse⟩
  refine ⟨_, print_of_length_le hlength, length_line _, ?_⟩
  rw [parse_line _ hlength]
  simp only [Kind.isAddress_ofCode]
  split
  · rfl
  · refine ⟨_, rfl, rfl, rfl, rfl, ?_⟩
    rw [checksum, body, Kind.code_ofCode]

end Record

end IspStream
