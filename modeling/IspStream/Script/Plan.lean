import IspStream.Clock
import IspStream.Files.Path
import IspStream.Image.Load
import IspStream.Instruction
import IspStream.Script.Line
import IspStream.Settings
import IspStream.Text.Integer

/-!
# Plans

What a command emits does not depend on where it goes.  So a command line is
first turned into a plan, the instructions it stands for with the notices that
report them, and nothing is written before the whole plan is known.

Faults are found in this order: the number of parameters, then the parameters
from left to right, then the referenced file.
-/

namespace IspStream.Script

/-! ## Parameters -/

/-- Reads a parameter as an integer. -/
def integer (parameter : List Char) : Except Fault Int :=
  let text := Text.trim parameter
  match Text.Integer.literal? text with
  | some value => .ok value
  | none => .error (.invalidInteger (String.ofList text))

/-- The parameters of one command. -/
structure Parameters where
  /-- The command. -/
  command : Command
  /-- Its parameters as they are written. -/
  texts : List (List Char)

namespace Parameters

/-- The parameter at an index. -/
def get (parameters : Parameters) (index : Nat) : Except Fault (List Char) :=
  match parameters.texts[index]? with
  | some text => .ok text
  | none => .error (.missingParameter parameters.command parameters.texts.length)

/-- The integer at an index. -/
def integer (parameters : Parameters) (index : Nat) : Except Fault Int := do
  Script.integer (← parameters.get index)

/-- The integer at an index, reduced to a byte. -/
def byte (parameters : Parameters) (index : Nat) : Except Fault UInt8 :=
  return UInt8.ofInt (← parameters.integer index)

/-- The file name at an index, which must not be empty. -/
def fileName (parameters : Parameters) (index : Nat) : Except Fault String := do
  let name := Text.trim (← parameters.get index)
  if name.isEmpty then throw (.emptyFileName parameters.command)
  return String.ofList name

end Parameters

/-- What a programming command asks for. -/
structure Request where
  /-- The memory to program. -/
  memory : Memory
  /-- The name of the hex file. -/
  name : String
  /-- The target address of the file's first cell. -/
  start : Int
  /-- The page size of the memory. -/
  pageSize : Int
deriving DecidableEq, Repr

/-- What a command asks for: one instruction of its own, or the programming of a
file. -/
inductive Order where
  /-- One instruction. -/
  | single (instruction : Instruction)
  /-- The content of a file. -/
  | file (request : Request)
deriving DecidableEq, Repr

/-- Reads the parameters of a command. -/
def Order.read (parameters : Parameters) : Except Fault Order := do
  match parameters.command with
  | .connect =>
    return .single (.connect (UInt8.ofNat (Clock.divider (← parameters.integer 0))))
  | .disconnect => return .single .disconnect
  | .spiWrite =>
    let first ← parameters.byte 0
    let second ← parameters.byte 1
    let third ← parameters.byte 2
    let fourth ← parameters.byte 3
    return .single (.spiWrite first second third fourth)
  | .spiVerify =>
    let first ← parameters.byte 0
    let second ← parameters.byte 1
    let third ← parameters.byte 2
    let fourth ← parameters.byte 3
    let expected ← parameters.byte 4
    return .single (.spiVerify first second third fourth expected)
  | .program memory =>
    let name ← parameters.fileName 0
    let start ← parameters.integer 1
    let pageSize ← parameters.integer 2
    return .file ⟨memory, name, start, pageSize⟩
  | .wait => return .single (.wait (← parameters.byte 0))
  | .countDown => return .single (.countDown (UInt16.ofInt (← parameters.integer 0)))
  | .finish => return .single .finish

/-! ## Plans -/

/-- An instruction with the notices that report it once it is emitted. -/
structure Part where
  /-- The instruction. -/
  instruction : Instruction
  /-- The notices. -/
  notices : List Notice := []
deriving DecidableEq, Repr

/-- What a command emits. -/
structure Plan where
  /-- The instructions in order. -/
  parts : List Part
  /-- The notices that follow the last instruction. -/
  closing : List Notice := []
deriving DecidableEq, Repr

/-- The bytes of a plan. -/
def Plan.bytes (plan : Plan) : List UInt8 :=
  plan.parts.flatMap fun part => part.instruction.bytes

/-- The outcome of planning. -/
structure Planned where
  /-- The notices in order. -/
  notices : List Notice
  /-- The plan, or the error that prevents it. -/
  result : Except Error Plan

end IspStream.Script

namespace IspStream

/-- A script compiler: its settings, and the files it may refer to. -/
structure Compiler where
  /-- The settings. -/
  settings : Settings
  /-- The files. -/
  read : Files.Reader

namespace Compiler

open Script

/-- The path of a file that a script names. -/
def resolve (compiler : Compiler) (name : String) : String :=
  match compiler.settings.baseDirectory? with
  | some directory => Path.join directory name
  | none => name

/-- The instruction that programs one block of a file, and its report. -/
def part (request : Request) (path : String) (image : Image) (block : Block) : Part :=
  let address := UInt32.ofInt (request.start + block.first)
  { instruction :=
      .program request.memory address (UInt16.ofInt request.pageSize) (image.payload block)
    notices := [.emitted request.memory block path address] }

/-- The plan for the content of a file: one instruction for each block of data. -/
def planImage (compiler : Compiler) (request : Request) (path : String) (image : Image)
    (stop : Nat) : Plan :=
  let blocks := image.blocks stop (compiler.settings.bound request.pageSize.toNat)
  { parts := blocks.map (part request path image)
    closing := if blocks.isEmpty then [.nothingEmitted path] else [] }

/-- The plan for programming a file, which is decoded into an image of its own. -/
def planFile (compiler : Compiler) (request : Request) : Planned :=
  let path := compiler.resolve request.name
  let scratch := Image.blank compiler.settings.targetMemorySize
  let loaded := scratch.load compiler.read path 0
  { notices := loaded.notices
    result := loaded.result.map (compiler.planImage request path loaded.image) }

/-- The plan for a command in a numbered line. -/
def plan (compiler : Compiler) (line : Nat) (command : Command) (texts : List (List Char)) :
    Planned :=
  if texts.length < command.arity then
    ⟨[], .error (.script (.missingParameter command texts.length) line)⟩
  else
    let surplus :=
      if command.arity < texts.length then [Notice.surplusParameters command line] else []
    match Order.read ⟨command, texts⟩ with
    | .error fault => ⟨surplus, .error (.script fault line)⟩
    | .ok (.single instruction) => ⟨surplus, .ok { parts := [{ instruction }] }⟩
    | .ok (.file request) =>
      let planned := compiler.planFile request
      { planned with notices := surplus ++ planned.notices }

end Compiler

end IspStream
