import IspStream.Record.Basic
import IspStream.Text.Hex

/-!
# Writing a record

A record is written as a colon and the digits of its bytes, in upper case.  The
length byte bounds the payload to 255 bytes; a longer one has no written form.
-/

namespace IspStream.Record

/-- All bytes of a record; they sum to zero. -/
def bytes (record : Record) : List UInt8 := record.body ++ [record.checksum]

/-- The line of a record. -/
def print (record : Record) : Except Fault (List Char) :=
  if 255 < record.data.length then .error .tooLong
  else .ok (':' :: Text.Hex.bytes record.bytes)

/-- The record that closes a file. -/
def closing : Record where
  address := 0
  kind := .endOfFile
  data := []

/-- The record that moves the linear base to a window of 64 KiB. -/
def window (number : Nat) : Record where
  address := 0
  kind := .linearAddress
  data := bigEndian 2 number

/-- The record that carries bytes for an absolute address, which lies in the
current window. -/
def chunk (position : Nat) (data : List UInt8) : Record where
  address := UInt16.ofNat position
  kind := .data
  data

/-- Hex text with one line per record.  A record without a written form has no
line. -/
def text (records : List Record) : String :=
  String.join ((records.filterMap fun record => record.print.toOption).map fun line =>
    String.ofList (line ++ ['\n']))

example : text [closing] = ":00000001FF\n" := by cbv

end IspStream.Record
