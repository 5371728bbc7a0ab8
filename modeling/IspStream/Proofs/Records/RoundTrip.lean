import IspStream.Proofs.Bytes
import IspStream.Record.Printer
import IspStream.Record.Reader
import IspStream.Text.Blank
import IspStream.Text.Lines
import Mathlib.Data.List.Basic

/-!
# A printed record is read back

Reading undoes writing, record by record and for a whole text.  A record keeps its
address and its payload; its kind is settled anew from the type code, so that a
record of an unusual kind with a usual code comes back as the usual kind
(`parse_line`).  The one record that has a line and is refused nevertheless is an
address record whose payload is not two bytes long.

A hex text consists of lines without white space, so that cutting it into lines
gives back the lines of its records (`lines_text`).
-/

namespace IspStream

/-! ## Bytes and digits -/

namespace Text

/-- A character of written bytes is a digit. -/
theorem Hex.isDigit_of_mem_bytes {values : List UInt8} {character : Char}
    (h : character ∈ Hex.bytes values) : Hex.isDigit character = true := by
  obtain ⟨value, -, hmem⟩ := List.mem_flatMap.mp h
  have hvalue := value.toNat_lt
  rw [Hex.byte, List.mem_cons, List.mem_singleton] at hmem
  rcases hmem with rfl | rfl
  · rw [Hex.isDigit, Hex.digit?_digitChar _ (by omega)]
    rfl
  · rw [Hex.isDigit, Hex.digit?_digitChar _ (Nat.mod_lt _ (by decide))]
    rfl

/-- All digits lie between `0` and `f`. -/
theorem Hex.toNat_of_isDigit {character : Char} (h : Hex.isDigit character = true) :
    0x30 ≤ character.toNat ∧ character.toNat ≤ 0x66 := by
  unfold Hex.isDigit Hex.digit? at h
  split at h
  · rename_i hdigit
    exact ⟨hdigit.1, Nat.le_trans hdigit.2 (by decide)⟩
  · split at h
    · rename_i hupper
      exact ⟨Nat.le_trans (by decide) hupper.1, Nat.le_trans hupper.2 (by decide)⟩
    · split at h
      · rename_i hlower
        exact ⟨Nat.le_trans (by decide) hlower.1, hlower.2⟩
      · exact absurd h (by decide)

/-- A digit is no white space. -/
theorem isBlank_of_isDigit {character : Char} (h : Hex.isDigit character = true) :
    isBlank character = false := by
  have hrange := Hex.toNat_of_isDigit h
  simp only [isBlank, blankRanges, List.any_cons, List.any_nil, Bool.or_false,
    Bool.or_eq_false_iff, Bool.and_eq_false_iff, decide_eq_false_iff_not]
  omega

/-- A text without white space stays as it is when its end is trimmed. -/
theorem trimEnd_of_forall {text : List Char}
    (h : ∀ character ∈ text, isBlank character = false) : trimEnd text = text := by
  have hkeep : text.reverse.dropWhile isBlank = text.reverse := by
    cases hreverse : text.reverse with
    | nil => rfl
    | cons last rest =>
        have hlast : last ∈ text := List.mem_reverse.mp (by rw [hreverse]; exact List.mem_cons_self)
        exact List.dropWhile_cons_of_neg (by simp [h last hlast])
  rw [trimEnd, hkeep, List.reverse_reverse]

/-! ## Lines -/

theorem splitOn_flatMap {lines : List (List Char)} (h : ∀ line ∈ lines, '\n' ∉ line) :
    (lines.flatMap (· ++ ['\n'])).splitOn '\n' = lines ++ [[]] := by
  induction lines with
  | nil => rfl
  | cons line rest ih =>
      have hrest := ih fun other hother => h other (List.mem_cons_of_mem _ hother)
      rw [List.flatMap_cons, List.append_assoc, List.singleton_append,
        List.splitOn_append_cons_self_of_not_mem (h line List.mem_cons_self), hrest]
      rfl

/-- Lines that are written with a line feed each are found again, provided that
none of them holds a line feed or ends in a carriage return. -/
theorem lines_flatMap {lines : List (List Char)} (hfeed : ∀ line ∈ lines, '\n' ∉ line)
    (hreturn : ∀ line ∈ lines, line.getLast? ≠ some '\r') :
    Text.lines (lines.flatMap (· ++ ['\n'])) = lines := by
  have hkeep : lines.map dropReturn = lines := by
    refine (List.map_congr_left fun line hline => ?_).trans (List.map_id lines)
    exact if_neg (hreturn line hline)
  unfold Text.lines
  rw [splitOn_flatMap hfeed]
  simp [hkeep]

end Text

namespace Record

/-! ## One record -/

/-- The line of a record, for a payload that is not too long. -/
def line (record : Record) : List Char := ':' :: Text.Hex.bytes record.bytes

/-- A record that comes back when its line is read. -/
structure WellFormed (record : Record) : Prop where
  length_le : record.data.length ≤ 255
  kind_eq : Kind.ofCode record.kind.code = record.kind
  address_length : record.kind.isAddress = true → record.data.length = 2

theorem print_of_length_le {record : Record} (h : record.data.length ≤ 255) :
    record.print = .ok record.line := if_neg (by omega)

@[simp] theorem length_body (record : Record) : record.body.length = record.data.length + 4 := by
  simp [body]
  omega

theorem bytes_eq (record : Record) :
    record.bytes = UInt8.ofNat record.data.length :: UInt8.ofNat (record.address.toNat / 256) ::
      UInt8.ofNat record.address.toNat :: record.kind.code ::
        (record.data ++ [record.checksum]) := by
  simp [bytes, body, bigEndian_two]

/-- The bytes of a record are read back. -/
theorem ofBytes_bytes (record : Record) (h : record.data.length ≤ 255) :
    ofBytes record.bytes =
      if (Kind.ofCode record.kind.code).isAddress ∧ record.data.length ≠ 2 then
        .error (.addressLength record.data.length)
      else .ok { record with kind := Kind.ofCode record.kind.code } := by
  have hlength : (UInt8.ofNat record.data.length).toNat = record.data.length := by
    rw [UInt8.toNat_ofNat']
    omega
  have htwo : UInt8.ofNat record.data.length = 2 ↔ record.data.length = 2 := by
    rw [← UInt8.toNat_inj, hlength]
    rfl
  have haddress : UInt16.ofNat (ofBigEndian [UInt8.ofNat (record.address.toNat / 256),
      UInt8.ofNat record.address.toNat]) = record.address := by
    have hsmall : record.address.toNat % 256 ^ 2 = record.address.toNat := by
      have := record.address.toNat_lt
      omega
    rw [← bigEndian_two, ofBigEndian_bigEndian, hsmall, UInt16.ofNat_toNat]
  have hbody : record.bytes.dropLast = record.body := List.dropLast_concat
  have hlast : record.bytes.getLastD 0 = record.checksum := by
    rw [bytes, List.getLastD_concat]
  have hsize : record.bytes.length = record.data.length + 5 := by
    simp [bytes]
  rw [bytes_eq] at hbody hlast hsize ⊢
  simp only [ofBytes, hbody, hlast, hsize, hlength, haddress, List.dropLast_concat, ne_eq, htwo]
  have hchecksum : IspStream.checksum record.body = record.checksum := rfl
  rw [if_neg (not_not_intro trivial), if_neg (not_not_intro hchecksum)]

/-- The line of a record is read back. -/
theorem parse_line (record : Record) (h : record.data.length ≤ 255) :
    parse record.line =
      if (Kind.ofCode record.kind.code).isAddress ∧ record.data.length ≠ 2 then
        .error (.addressLength record.data.length)
      else .ok { record with kind := Kind.ofCode record.kind.code } := by
  have hdigits : (Text.Hex.bytes record.bytes).all Text.Hex.isDigit = true :=
    List.all_eq_true.mpr fun character hmem => Text.Hex.isDigit_of_mem_bytes hmem
  have hlength : (Text.Hex.bytes record.bytes).length = 2 * (record.data.length + 5) := by
    simp [bytes]
  rw [line, parse, ofDigits, hdigits, hlength, minimumDigits, maximumDigits]
  rw [if_neg (by simp), if_neg (by omega), if_neg (by omega), if_neg (by omega),
    Text.Hex.bytes?_bytes]
  exact ofBytes_bytes record h

theorem WellFormed.parse_line {record : Record} (h : record.WellFormed) :
    parse record.line = .ok record := by
  rw [Record.parse_line record h.length_le, h.kind_eq, if_neg]
  rintro ⟨haddress, hlength⟩
  exact hlength (h.address_length haddress)

/-! ## The line of a record as text -/

theorem isBlank_of_mem_line {record : Record} {character : Char} (h : character ∈ record.line) :
    Text.isBlank character = false := by
  rcases List.mem_cons.mp h with rfl | hdigit
  · decide
  · exact Text.isBlank_of_isDigit (Text.Hex.isDigit_of_mem_bytes hdigit)

@[simp] theorem trimEnd_line (record : Record) : Text.trimEnd record.line = record.line :=
  Text.trimEnd_of_forall fun _ hmem => isBlank_of_mem_line hmem

/-- The text of records is their lines with a line feed behind each. -/
theorem toList_text {records : List Record} (h : ∀ record ∈ records, record.data.length ≤ 255) :
    (text records).toList = (records.map line).flatMap (· ++ ['\n']) := by
  have hlines : (records.filterMap fun record => record.print.toOption) = records.map line := by
    rw [← List.filterMap_eq_map]
    exact List.filterMap_congr fun record hmem => by rw [print_of_length_le (h record hmem)]; rfl
  rw [text, hlines, String.toList_join, List.flatMap_map]
  exact List.flatMap_congr fun content _ => String.toList_ofList

/-- The text of records consists of their lines. -/
theorem lines_text {records : List Record} (h : ∀ record ∈ records, record.data.length ≤ 255) :
    Text.lines (text records).toList = records.map line := by
  rw [toList_text h]
  refine Text.lines_flatMap ?_ ?_
  · intro content hcontent hfeed
    obtain ⟨record, -, rfl⟩ := List.mem_map.mp hcontent
    exact absurd (isBlank_of_mem_line hfeed) (by decide)
  · intro content hcontent hreturn
    obtain ⟨record, -, rfl⟩ := List.mem_map.mp hcontent
    exact absurd (isBlank_of_mem_line (List.mem_of_getLast? hreturn)) (by decide)

end Record

end IspStream
