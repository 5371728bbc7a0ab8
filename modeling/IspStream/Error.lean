import IspStream.Command
import IspStream.Files.Fault
import IspStream.Record.Basic
import IspStream.Text.Hex

/-!
# Errors

An error says what went wrong and where: in a line of hex text, in a line of a
script, at an address outside the memory image, or in a file.  The wording of
every message is in this module.
-/

namespace IspStream

/-! ## Faults of a line -/

/-- The text of a record fault. -/
def Record.Fault.message : Record.Fault → String
  | .missingStartCode => "Missing start code ':'"
  | .invalidCharacters => "Record contains invalid character(s)"
  | .tooShort => "Record too short"
  | .tooLong => "Record too long"
  | .unevenLength => "Record with uneven length"
  | .payloadLength => "Payload (data bytes) size differs from record's length"
  | .addressLength found => s!"Address record must carry 2 data bytes, found {found}"
  | .checksumMismatch expected found =>
    let expectedDigits := Text.Hex.padded 2 expected.toNat
    let foundDigits := Text.Hex.padded 2 found.toNat
    s!"Invalid record checksum - expected: 0x{expectedDigits}, found: 0x{foundDigits}"

/-- Why a script line with a known command is refused. -/
inductive Script.Fault where
  /-- A parameter is no integer literal. -/
  | invalidInteger (parameter : String)
  /-- There are fewer parameters than the command needs. -/
  | missingParameter (command : Command) (found : Nat)
  /-- The file name is empty. -/
  | emptyFileName (command : Command)
deriving DecidableEq, Repr

/-- The text of a script fault. -/
def Script.Fault.message : Script.Fault → String
  | .invalidInteger parameter => s!"Invalid integer value '{parameter}'"
  | .missingParameter command found =>
    s!"Command {command.name} expects {command.arity} parameter(s), found {found}"
  | .emptyFileName command => s!"Command {command.name} has an empty file name"

/-! ## Errors of a whole text -/

/-- What can go wrong. -/
inductive Error where
  /-- A line of hex text is no record. -/
  | record (fault : Record.Fault) (line : Nat)
  /-- A script line is refused. -/
  | script (fault : Script.Fault) (line : Nat)
  /-- A byte has an address outside the memory image of the given size. -/
  | capacity (address size line : Nat)
  /-- A file cannot be accessed. -/
  | file (path : String) (fault : Files.Fault)
deriving DecidableEq, Repr

namespace Error

/-- The number of the line that the error is about. -/
def line? : Error → Option Nat
  | record _ line | script _ line | capacity _ _ line => some line
  | file _ _ => none

/-- The error message. -/
def message : Error → String
  | record fault line =>
    s!"Error encountered during record parsing at line #{line} of the hex file:\n{fault.message}"
  | script fault line =>
    s!"Error encountered during parsing at line #{line} of the script:\n{fault.message}"
  | capacity address size line =>
    let addressDigits := Text.Hex.padded 1 address
    let sizeDigits := Text.Hex.padded 1 size
    s!"Address 0x{addressDigits} is outside of the memory image " ++
      s!"(capacity 0x{sizeDigits}) at line #{line}"
  | file path fault => s!"Failed to access file '{path}': {fault.message}"

end Error

end IspStream
