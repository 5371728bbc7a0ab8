import IspStream.Record.Basic
import IspStream.Text.Hex

/-!
# Reading a record

The rules of the record grammar are checked in a fixed order, and the first one
that a line breaks names its fault: start code, digits, number of digits, length
byte, checksum, length of an address record.  White space at the end of a line is
not part of the record and has to be gone before.
-/

namespace IspStream.Record

/-- The number of digits of a record without payload. -/
def minimumDigits : Nat := 10

/-- The number of digits of a record with 255 bytes of payload. -/
def maximumDigits : Nat := 520

/-- Reads the bytes of a record, the checksum last.  There are five at least, since the number
of digits is checked before, and so they never are too few here (`ofBytes_ne_tooShort`). -/
def ofBytes (bytes : List UInt8) : Except Fault Record :=
  match bytes with
  | length :: high :: low :: code :: rest =>
    if bytes.length ≠ length.toNat + 5 then .error .payloadLength
    else
      let expected := IspStream.checksum bytes.dropLast
      let found := bytes.getLastD 0
      let kind := Kind.ofCode code
      if expected ≠ found then .error (.checksumMismatch expected found)
      else if kind.isAddress ∧ length ≠ 2 then .error (.addressLength length.toNat)
      else .ok {
        address := UInt16.ofNat (ofBigEndian [high, low])
        kind
        data := rest.dropLast }
  | _ => .error .tooShort

/-- Reads the digits behind the start code. -/
def ofDigits (digits : List Char) : Except Fault Record :=
  if !digits.all Text.Hex.isDigit then .error .invalidCharacters
  else if digits.length < minimumDigits then .error .tooShort
  else if maximumDigits < digits.length then .error .tooLong
  else if digits.length % 2 ≠ 0 then .error .unevenLength
  else
    match Text.Hex.bytes? digits with
    | some bytes => ofBytes bytes
    | none => .error .invalidCharacters

/-- Reads a line as a record. -/
def parse : List Char → Except Fault Record
  | ':' :: digits => ofDigits digits
  | _ => .error .missingStartCode

end IspStream.Record
