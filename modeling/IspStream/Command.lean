/-!
# Script commands

The nine commands a script line may begin with.  Two of them program a memory of
the target device and differ only in which memory that is.
-/

namespace IspStream

/-- The memories of the target device that a script can program. -/
inductive Memory where
  /-- The program memory. -/
  | flash
  /-- The data memory. -/
  | eeprom
deriving DecidableEq, Repr

/-- The commands of a script. -/
inductive Command where
  /-- Connects to the target at a clock frequency. -/
  | connect
  /-- Ends the connection. -/
  | disconnect
  /-- Sends four bytes to the target. -/
  | spiWrite
  /-- Sends four bytes to the target and compares its answer with a fifth. -/
  | spiVerify
  /-- Programs a memory of the target with the content of a hex file. -/
  | program (memory : Memory)
  /-- Pauses. -/
  | wait
  /-- Counts the programming runs that are left. -/
  | countDown
  /-- Ends the command stream. -/
  | finish
deriving DecidableEq, Repr

namespace Command

/-- Every command, in the order of its definition. -/
def all : List Command :=
  [connect, disconnect, spiWrite, spiVerify, program .flash, program .eeprom, wait, countDown,
    finish]

/-- The word for a command, in upper case. -/
def name : Command → String
  | connect => "CONNECT"
  | disconnect => "DISCONNECT"
  | spiWrite => "SPIWRITE"
  | spiVerify => "SPIVERIFY"
  | program .flash => "FLASH"
  | program .eeprom => "EEPROM"
  | wait => "WAIT"
  | countDown => "DECCOUNTER"
  | finish => "END"

/-- The number of parameters a command needs. -/
def arity : Command → Nat
  | disconnect | finish => 0
  | connect | wait | countDown => 1
  | program _ => 3
  | spiWrite => 4
  | spiVerify => 5

/-- The code of a command in the command stream. -/
def opcode : Command → UInt8
  | connect => 0x01
  | disconnect => 0x02
  | spiWrite => 0x03
  | spiVerify => 0x04
  | program .flash => 0x05
  | wait => 0x06
  | countDown => 0x07
  | program .eeprom => 0x08
  | finish => 0xFF

/-- The command that an upper-case word names. -/
def ofName? (word : String) : Option Command := all.find? fun command => command.name == word

theorem mem_all (command : Command) : command ∈ all := by
  cases command with
  | program memory => cases memory <;> decide
  | _ => decide

/-- A command is found under its name. -/
@[simp] theorem ofName?_name (command : Command) : ofName? command.name = some command := by
  cases command with
  | program memory => cases memory <;> decide
  | _ => decide

end Command

end IspStream
