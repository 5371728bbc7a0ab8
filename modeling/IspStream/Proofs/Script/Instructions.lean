import IspStream.Proofs.Blocks.Payload
import IspStream.Proofs.Script.Denotation
import Mathlib.Data.Option.Basic

/-!
# The instructions of a script

The bytes that a script denotes are those of a list of instructions: one for every
command but the programming ones, and for these one for every block of data.  This
file defines that list as it is defined for bytes, command by command, and relates it
to both sides.  Its bytes are the denoted ones (`bytes_linesInstructions`), and it is
what planning comes up with (`instructions_plan`), so that a plan exists exactly if
the command denotes bytes (`bytes_plan`).
-/

namespace IspStream

namespace Compiler

open Script

variable {compiler : Compiler}

/-! ## Commands, lines and scripts -/

/-- The instructions for the data of a file that a script names. -/
def fileInstructions (compiler : Compiler) (memory : Memory) (name : String)
    (start pageSize : Int) : Option (List Instruction) := do
  let (image, stop) ← compiler.content? name
  return (image.blocks stop (compiler.settings.bound pageSize.toNat)).map fun block =>
    .program memory (UInt32.ofInt (start + block.first)) (UInt16.ofInt pageSize)
      (image.payload block)

/-- The instructions that a command denotes, if its parameters are as they should be. -/
def commandInstructions (compiler : Compiler) (command : Command) (texts : List (List Char)) :
    Option (List Instruction) :=
  match command with
  | .connect => do
    let frequency ← value? texts 0
    return [.connect (UInt8.ofNat (Clock.divider frequency))]
  | .disconnect => some [.disconnect]
  | .spiWrite => do
    let first ← value? texts 0
    let second ← value? texts 1
    let third ← value? texts 2
    let fourth ← value? texts 3
    return [.spiWrite (UInt8.ofInt first) (UInt8.ofInt second) (UInt8.ofInt third)
      (UInt8.ofInt fourth)]
  | .spiVerify => do
    let first ← value? texts 0
    let second ← value? texts 1
    let third ← value? texts 2
    let fourth ← value? texts 3
    let expected ← value? texts 4
    return [.spiVerify (UInt8.ofInt first) (UInt8.ofInt second) (UInt8.ofInt third)
      (UInt8.ofInt fourth) (UInt8.ofInt expected)]
  | .program memory => do
    let name ← name? texts
    let start ← value? texts 1
    let pageSize ← value? texts 2
    compiler.fileInstructions memory name start pageSize
  | .wait => do
    let value ← value? texts 0
    return [.wait (UInt8.ofInt value)]
  | .countDown => do
    let value ← value? texts 0
    return [.countDown (UInt16.ofInt value)]
  | .finish => some [.finish]

/-- The instructions that a line denotes. -/
def lineInstructions (compiler : Compiler) (line : List Char) : Option (List Instruction) :=
  match Line.parse line with
  | .empty | .unknown _ => some []
  | .known command texts => compiler.commandInstructions command texts

/-- The instructions that lines denote, one after the other. -/
def linesInstructions (compiler : Compiler) (lines : List (List Char)) :
    Option (List Instruction) :=
  (lines.mapM compiler.lineInstructions).map List.flatten

/-- The instructions that a script denotes. -/
def instructions (compiler : Compiler) (script : String) : Option (List Instruction) :=
  compiler.linesInstructions (Text.lines script.toList)

/-- The content of a file is what its text is decoded into. -/
theorem decoded_of_content? {name : String} {image : Image} {stop : Nat}
    (h : compiler.content? name = some (image, stop)) :
    ∃ text, compiler.read (compiler.resolve name) = .ok text ∧
      ((Image.blank compiler.settings.targetMemorySize).decode text 0).result = .ok stop ∧
      ((Image.blank compiler.settings.targetMemorySize).decode text 0).image = image := by
  unfold content? at h
  split at h
  · cases h
  · rename_i text hread
    simp only at h
    split at h
    · cases h
    · rename_i final hfinal
      cases h
      exact ⟨text, hread, hfinal, rfl⟩

/-- Any command but a programming one denotes an instruction of its own. -/
theorem eq_singleton_of_commandInstructions {command : Command} {texts : List (List Char)}
    {list : List Instruction} (h : compiler.commandInstructions command texts = some list)
    (hcommand : ∀ memory, command ≠ .program memory) :
    ∃ instruction, list = [instruction] ∧ instruction.command = command := by
  cases command with
  | program memory => exact absurd rfl (hcommand memory)
  | disconnect | finish =>
      cases h
      exact ⟨_, rfl, rfl⟩
  | connect | wait | countDown | spiWrite | spiVerify =>
      simp only [commandInstructions, Option.bind_eq_bind, Option.bind_eq_some_iff] at h
      grind [Instruction.command]

/-! ## Their bytes -/

theorem bytes_program {memory : Memory} {start pageSize : Int} {image : Image}
    {stop bound : Nat} {block : Block} (h : block ∈ image.blocks stop bound) :
    (Instruction.program memory (UInt32.ofInt (start + block.first)) (UInt16.ofInt pageSize)
      (image.payload block)).bytes = denoteBlock memory start pageSize image block := by
  have hopcode : (Command.program memory).opcode = programCode memory := by
    cases memory <;> rfl
  rw [denoteBlock, word_four, word_two, word_natCast, ← Image.length_payload h, ← hopcode]
  simp [Instruction.bytes, Instruction.fields, Image.payload]

theorem bytes_fileInstructions (memory : Memory) (name : String) (start pageSize : Int) :
    (compiler.fileInstructions memory name start pageSize).map (List.flatMap Instruction.bytes) =
      compiler.denoteFile memory name start pageSize := by
  unfold fileInstructions denoteFile
  cases compiler.content? name with
  | none => rfl
  | some content =>
      obtain ⟨image, stop⟩ := content
      refine congrArg some ?_
      rw [List.flatMap_map]
      exact List.flatMap_congr fun block hblock => bytes_program hblock

theorem bytes_commandInstructions (command : Command) (texts : List (List Char)) :
    (compiler.commandInstructions command texts).map (List.flatMap Instruction.bytes) =
      compiler.denoteCommand command texts := by
  cases command with
  | disconnect | finish => rfl
  | connect | wait | countDown =>
      unfold commandInstructions denoteCommand
      cases value? texts 0 with
      | none => rfl
      | some value => simp [Instruction.bytes, Instruction.fields, Command.opcode, word_one,
          word_two]
  | spiWrite | spiVerify =>
      unfold commandInstructions denoteCommand values?
      simp [List.range_succ, Option.map_bind, Option.bind_assoc, Instruction.bytes,
        Instruction.fields, Command.opcode, word_one]
  | program memory =>
      unfold commandInstructions denoteCommand
      cases name? texts with
      | none => rfl
      | some name =>
          cases value? texts 1 with
          | none => rfl
          | some start =>
              cases value? texts 2 with
              | none => rfl
              | some pageSize => exact bytes_fileInstructions memory name start pageSize

theorem bytes_lineInstructions (line : List Char) :
    (compiler.lineInstructions line).map (List.flatMap Instruction.bytes) =
      compiler.denoteLine line := by
  unfold lineInstructions denoteLine
  cases Line.parse line with
  | empty | unknown word => rfl
  | known command texts => exact bytes_commandInstructions command texts

theorem linesInstructions_cons (line : List Char) (rest : List (List Char)) :
    compiler.linesInstructions (line :: rest) =
      (compiler.lineInstructions line).bind fun first =>
        (compiler.linesInstructions rest).map (first ++ ·) := by
  unfold linesInstructions
  rw [List.mapM_cons]
  cases compiler.lineInstructions line with
  | none => rfl
  | some first => cases rest.mapM compiler.lineInstructions <;> rfl

theorem denoteLines_cons (line : List Char) (rest : List (List Char)) :
    compiler.denoteLines (line :: rest) =
      (compiler.denoteLine line).bind fun first =>
        (compiler.denoteLines rest).map (first ++ ·) := by
  rw [denoteLines, List.mapM_cons, denoteLines]
  cases compiler.denoteLine line with
  | none => rfl
  | some first => cases rest.mapM compiler.denoteLine <;> rfl

/-- The bytes that lines denote are those of their instructions. -/
theorem bytes_linesInstructions (lines : List (List Char)) :
    (compiler.linesInstructions lines).map (List.flatMap Instruction.bytes) =
      compiler.denoteLines lines := by
  induction lines with
  | nil => rfl
  | cons line rest ih =>
      rw [denoteLines_cons, ← bytes_lineInstructions, ← ih, linesInstructions_cons]
      cases compiler.lineInstructions line with
      | none => rfl
      | some first =>
          cases compiler.linesInstructions rest with
          | none => rfl
          | some others => simp

end Compiler

/-! ## Planning agrees -/

namespace Script

variable {ε α β : Type}

theorem toOption_bind (value : Except ε α) (next : α → Except ε β) :
    (value >>= next).toOption = value.toOption.bind fun result => (next result).toOption := by
  cases value <;> rfl

theorem toOption_pure (value : α) : (pure value : Except ε α).toOption = some value := rfl

theorem toOption_integer (command : Command) (texts : List (List Char)) (index : Nat) :
    (Parameters.integer ⟨command, texts⟩ index).toOption = value? texts index := by
  rw [Parameters.integer, toOption_bind, Parameters.get, value?]
  cases texts[index]? with
  | none => rfl
  | some text =>
      simp only [Except.toOption, Option.bind_some, Script.integer]
      cases Text.Integer.literal? (Text.trim text) <;> rfl

theorem toOption_byte (command : Command) (texts : List (List Char)) (index : Nat) :
    (Parameters.byte ⟨command, texts⟩ index).toOption =
      (value? texts index).map UInt8.ofInt := by
  rw [Parameters.byte, toOption_bind, toOption_integer]
  cases value? texts index <;> rfl

theorem toOption_fileName (command : Command) (texts : List (List Char)) :
    (Parameters.fileName ⟨command, texts⟩ 0).toOption = name? texts := by
  rw [Parameters.fileName, toOption_bind, Parameters.get, name?]
  cases texts[0]? with
  | none => rfl
  | some text =>
      simp only [Except.toOption, Option.bind_some, Option.map_some]
      cases (Text.trim text).isEmpty <;> rfl

end Script

namespace Compiler

open Script

variable {compiler : Compiler}

/-- The instructions that an order denotes. -/
def orderInstructions (compiler : Compiler) : Order → Option (List Instruction)
  | .single instruction => some [instruction]
  | .file request =>
    compiler.fileInstructions request.memory request.name request.start request.pageSize

/-- A command that has too few parameters denotes nothing. -/
theorem commandInstructions_of_length_lt {command : Command} {texts : List (List Char)}
    (h : texts.length < command.arity) : compiler.commandInstructions command texts = none := by
  have hlast : ∀ index, texts.length ≤ index → value? texts index = none := by
    intro index hindex
    rw [value?, List.getElem?_eq_none hindex]
    rfl
  cases command with
  | disconnect | finish => cases h
  | connect | wait | countDown =>
      simp only [commandInstructions, hlast 0 (Nat.le_of_lt_succ h)]
      rfl
  | spiWrite => simp [commandInstructions, hlast 3 (Nat.le_of_lt_succ h)]
  | spiVerify => simp [commandInstructions, hlast 4 (Nat.le_of_lt_succ h)]
  | program memory => simp [commandInstructions, hlast 2 (Nat.le_of_lt_succ h)]

/-- Reading the parameters of a command gives an order for what it denotes. -/
theorem commandInstructions_eq (command : Command) (texts : List (List Char)) :
    compiler.commandInstructions command texts =
      (Order.read ⟨command, texts⟩).toOption.bind compiler.orderInstructions := by
  cases command with
  | disconnect | finish => rfl
  | connect | wait | countDown =>
      simp only [commandInstructions, Order.read, toOption_bind, toOption_integer, toOption_byte]
      cases value? texts 0 <;> rfl
  | spiWrite | spiVerify =>
      simp only [commandInstructions, Order.read, toOption_bind, toOption_byte]
      simp [Option.bind_map, Option.bind_assoc, toOption_pure,
        orderInstructions]
  | program memory =>
      simp only [commandInstructions, Order.read, toOption_bind, toOption_integer, toOption_fileName]
      cases name? texts with
      | none => rfl
      | some name =>
          cases value? texts 1 with
          | none => rfl
          | some start => cases value? texts 2 <;> rfl

/-- The instructions of a plan. -/
def planInstructions (plan : Plan) : List Instruction := plan.parts.map Part.instruction

theorem bytes_planInstructions (plan : Plan) :
    (planInstructions plan).flatMap Instruction.bytes = plan.bytes :=
  List.flatMap_map ..

theorem instructions_planFile (request : Request) :
    (compiler.planFile request).result.toOption.map planInstructions =
      compiler.fileInstructions request.memory request.name request.start request.pageSize := by
  rw [planFile, fileInstructions, content?, Image.load]
  cases compiler.read (compiler.resolve request.name) with
  | error fault => rfl
  | ok text =>
      simp only
      cases ((Image.blank compiler.settings.targetMemorySize).decode text 0).result with
      | error error => rfl
      | ok stop => exact congrArg some (List.map_map ..)

/-- A plan for a command holds the instructions that the command denotes. -/
theorem instructions_plan (number : Nat) (command : Command) (texts : List (List Char)) :
    (compiler.plan number command texts).result.toOption.map planInstructions =
      compiler.commandInstructions command texts := by
  unfold plan
  split
  · rename_i hfew
    exact (commandInstructions_of_length_lt hfew).symm
  · rw [commandInstructions_eq]
    cases Order.read ⟨command, texts⟩ with
    | error fault => rfl
    | ok order =>
        cases order with
        | single instruction => rfl
        | file request => exact instructions_planFile request

/-- A plan for a command exists exactly if the command denotes bytes, and then it
stands for these bytes. -/
theorem bytes_plan (number : Nat) (command : Command) (texts : List (List Char)) :
    (compiler.plan number command texts).result.toOption.map Plan.bytes =
      compiler.denoteCommand command texts := by
  rw [← bytes_commandInstructions, ← instructions_plan number, Option.map_map]
  exact Option.map_congr fun plan _ => (bytes_planInstructions plan).symm

end Compiler

end IspStream
