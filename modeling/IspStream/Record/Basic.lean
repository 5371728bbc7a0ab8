import IspStream.Bytes

/-!
# Intel HEX records

A record carries bytes for an address, marks the end of the file, or replaces one
of the two address bases.

A line also states the length of the payload and a checksum.  Both are left out of the
record, because they follow from the rest: the length is `data.length`, and the checksum is
`Record.checksum`.  Reading refuses a line that states anything else, so that the first and
the last byte of an accepted line are these two (`Record.ends_of_parse`).
-/

namespace IspStream

/-- What a record is for. -/
inductive Record.Kind where
  /-- Bytes for consecutive addresses. -/
  | data
  /-- The mark that closes a file. -/
  | endOfFile
  /-- A new segment base, in units of sixteen bytes. -/
  | segmentAddress
  /-- A new linear base, in units of 64 KiB. -/
  | linearAddress
  /-- Any other type code. -/
  | other (code : UInt8)
deriving DecidableEq, Repr

namespace Record.Kind

/-- The kind with a given type code. -/
def ofCode (code : UInt8) : Kind :=
  if code = 0 then data
  else if code = 1 then endOfFile
  else if code = 2 then segmentAddress
  else if code = 4 then linearAddress
  else other code

/-- The type code of a kind. -/
def code : Kind → UInt8
  | data => 0
  | endOfFile => 1
  | segmentAddress => 2
  | linearAddress => 4
  | other code => code

/-- Whether records of this kind replace an address base. -/
def isAddress : Kind → Bool
  | segmentAddress | linearAddress => true
  | _ => false

/-- A type code is read back from the kind it names. -/
@[simp] theorem code_ofCode (code : UInt8) : (ofCode code).code = code := by
  unfold ofCode
  repeat' split
  all_goals simp_all [Kind.code]

end Record.Kind

/-- A hex record. -/
structure Record where
  /-- The address field. -/
  address : UInt16
  /-- What the record is for. -/
  kind : Record.Kind
  /-- The payload. -/
  data : List UInt8
deriving DecidableEq, Repr

namespace Record

/-- All bytes of a record but its checksum: length, address, type code and
payload.  A payload of more than 255 bytes has no length byte of its own, see
`Record.print`. -/
def body (record : Record) : List UInt8 :=
  UInt8.ofNat record.data.length :: bigEndian 2 record.address.toNat ++
    record.kind.code :: record.data

/-- The checksum over header and payload. -/
def checksum (record : Record) : UInt8 := IspStream.checksum record.body

/-- The number that an address record carries, which needs exactly two bytes of
payload. -/
def addressValue? (record : Record) : Option UInt16 :=
  match record.data with
  | [high, low] => some (UInt16.ofNat (ofBigEndian [high, low]))
  | _ => none

/-! ## Faults -/

/-- Why a line is no record, or why a record has no line. -/
inductive Fault where
  /-- The line does not begin with a colon. -/
  | missingStartCode
  /-- A character behind the colon is no hexadecimal digit. -/
  | invalidCharacters
  /-- There are fewer digits than the shortest record has. -/
  | tooShort
  /-- There are more digits, or more bytes of payload, than the longest record has. -/
  | tooLong
  /-- The number of digits is odd. -/
  | unevenLength
  /-- The number of bytes does not agree with the length byte. -/
  | payloadLength
  /-- An address record carries a payload of another length than two. -/
  | addressLength (found : Nat)
  /-- The checksum is not the one of the bytes before it. -/
  | checksumMismatch (expected found : UInt8)
deriving DecidableEq, Repr

end Record

end IspStream
