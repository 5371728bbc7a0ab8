import IspStream.Bytes
import IspStream.Command

/-!
# Instructions of the command stream

An instruction is an opcode and its operands.  Only the programming instructions
have a size of their own: they carry the length of their payload in front of it.
-/

namespace IspStream

/-- One instruction for the programmer. -/
inductive Instruction where
  /-- Connects with a divider setting of the clock. -/
  | connect (divider : UInt8)
  /-- Ends the connection. -/
  | disconnect
  /-- Sends four bytes. -/
  | spiWrite (first second third fourth : UInt8)
  /-- Sends four bytes and compares the answer. -/
  | spiVerify (first second third fourth expected : UInt8)
  /-- Programs consecutive cells of a memory, page by page. -/
  | program (memory : Memory) (address : UInt32) (pageSize : UInt16) (payload : List UInt8)
  /-- Pauses. -/
  | wait (duration : UInt8)
  /-- Counts the programming runs that are left. -/
  | countDown (limit : UInt16)
  /-- Ends the command stream. -/
  | finish
deriving DecidableEq, Repr

namespace Instruction

/-- The command that an instruction comes from. -/
def command : Instruction → Command
  | connect _ => .connect
  | disconnect => .disconnect
  | spiWrite .. => .spiWrite
  | spiVerify .. => .spiVerify
  | program memory .. => .program memory
  | wait _ => .wait
  | countDown _ => .countDown
  | finish => .finish

/-- The fields of an instruction.  Each field is written as a whole or not at all,
and only a programming instruction has more than one: opcode, address, length,
page size and payload. -/
def fields : Instruction → List (List UInt8)
  | connect divider => [[Command.connect.opcode, divider]]
  | disconnect => [[Command.disconnect.opcode]]
  | spiWrite first second third fourth =>
    [[Command.spiWrite.opcode, first, second, third, fourth]]
  | spiVerify first second third fourth expected =>
    [[Command.spiVerify.opcode, first, second, third, fourth, expected]]
  | program memory address pageSize payload =>
    [[(Command.program memory).opcode], bigEndian 4 address.toNat, bigEndian 4 payload.length,
      bigEndian 2 pageSize.toNat, payload]
  | wait duration => [[Command.wait.opcode, duration]]
  | countDown limit => [Command.countDown.opcode :: bigEndian 2 limit.toNat]
  | finish => [[Command.finish.opcode]]

/-- The bytes of an instruction. -/
def bytes (instruction : Instruction) : List UInt8 := instruction.fields.flatten

end Instruction

end IspStream
