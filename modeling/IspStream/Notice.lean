import IspStream.Block
import IspStream.Command
import IspStream.Text.Hex

/-!
# Notices

Decoding and compiling report what they skip and what they emit.  A notice never
stops the work.
-/

namespace IspStream

/-- How important a notice is. -/
inductive Notice.Level where
  /-- Shown to the user. -/
  | warning
  /-- Kept for inspection. -/
  | detail
deriving DecidableEq, Repr

/-- The part of the work that a notice comes from. -/
inductive Notice.Source where
  /-- Decoding hex text. -/
  | image
  /-- Compiling a script. -/
  | script
  /-- The command line itself. -/
  | commandLine
deriving DecidableEq, Repr

/-- A message about the work in progress. -/
inductive Notice where
  /-- A record of a type that is not interpreted. -/
  | unknownRecord (code : UInt8) (line : Nat)
  /-- A script line whose first word is no command. -/
  | unknownCommand (word : String) (line : Nat)
  /-- A command with more parameters than it takes. -/
  | surplusParameters (command : Command) (line : Nat)
  /-- A script line that was compiled into the cells from `start` up to, but not
  including, `stop`. -/
  | compiled (line : Nat) (command : Command) (start stop : Nat)
  /-- A block of a referenced file that was emitted for a target address. -/
  | emitted (memory : Memory) (block : Block) (path : String) (address : UInt32)
  /-- A referenced file without data. -/
  | nothingEmitted (path : String)
  /-- A base firmware that reaches into the script region. -/
  | baseOverlap (stop start : Nat)
  /-- A run without base firmware. -/
  | noBase
deriving DecidableEq, Repr

namespace Notice

/-- How important the notice is. -/
def level : Notice → Level
  | compiled .. | emitted .. | nothingEmitted .. => .detail
  | _ => .warning

/-- Where the notice comes from. -/
def source : Notice → Source
  | unknownRecord .. => .image
  | baseOverlap .. | noBase => .commandLine
  | _ => .script

/-- The text of the notice. -/
def message : Notice → String
  | unknownRecord code line =>
    let digits := Text.Hex.padded 2 code.toNat
    s!"Unknown record type 0x{digits} in line {line}, skipped"
  | unknownCommand word line => s!"Unknown command \"{word}\" in line {line}, skipped"
  | surplusParameters command line =>
    s!"Command {command.name} in line {line} takes {command.arity} parameter(s), " ++
      "ignoring the rest"
  | compiled line command start stop =>
    let startDigits := Text.Hex.padded 5 start
    let stopDigits := Text.Hex.padded 5 stop
    s!"line {line}: {command.name} -> 0x{startDigits}..0x{stopDigits}"
  | emitted memory block path address =>
    let firstDigits := Text.Hex.padded 6 block.first
    let lastDigits := Text.Hex.padded 6 block.last
    let addressDigits := Text.Hex.padded 6 address.toNat
    let name := (Command.program memory).name
    s!"{name} block 0x{firstDigits}..=0x{lastDigits} of {path} -> target 0x{addressDigits}"
  | nothingEmitted path => s!"{path} has no data, nothing emitted"
  | baseOverlap stop start =>
    let stopDigits := Text.Hex.padded 1 stop
    let startDigits := Text.Hex.padded 1 start
    s!"Base firmware ends at 0x{stopDigits} and overlaps the script region at 0x{startDigits}"
  | noBase => "No base firmware given, output holds the command stream only"

end Notice

end IspStream
