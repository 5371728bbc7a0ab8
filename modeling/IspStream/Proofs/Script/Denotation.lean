import IspStream.Proofs.Bytes
import IspStream.Script.Compile
import Mathlib.Algebra.Group.Int.Defs

/-!
# What a script denotes

A script line denotes bytes or nothing at all.  This file defines these bytes
without any mention of where they go, how they are cut into fields or in which
order faults are found: integers are read and reduced modulo a power of 256, and a
file contributes its blocks one after the other.
-/

namespace IspStream

/-! ## Integers as bytes -/

namespace Script

/-- An integer modulo `256 ^ width`, the most significant byte first. -/
def word (width : Nat) (value : Int) : List UInt8 :=
  bigEndian width (value % 256 ^ width).toNat

theorem word_one (value : Int) : word 1 value = [UInt8.ofInt value] := by
  simp [word, bigEndian, UInt8.ofInt]

theorem word_two (value : Int) : word 2 value = bigEndian 2 (UInt16.ofInt value).toNat := by
  have hsmall : (value % 2 ^ 16).toNat < 2 ^ 16 := by omega
  rw [UInt16.ofInt, UInt16.toNat_ofNat', Nat.mod_eq_of_lt hsmall]
  rfl

theorem word_four (value : Int) : word 4 value = bigEndian 4 (UInt32.ofInt value).toNat := by
  have hsmall : (value % 2 ^ 32).toNat < 2 ^ 32 := by omega
  rw [UInt32.ofInt, UInt32.toNat_ofNat', Nat.mod_eq_of_lt hsmall]
  rfl

theorem word_natCast (width value : Nat) : word width value = bigEndian width value := by
  have hvalue : ((value : Int) % 256 ^ width).toNat = value % 256 ^ width := by
    have hcast : (value : Int) % 256 ^ width = ((value % 256 ^ width : Nat) : Int) := by
      rw [Int.natCast_emod, Int.natCast_pow]
      rfl
    rw [hcast, Int.toNat_natCast]
  rw [word, hvalue, bigEndian_mod]

/-! ## Parameters -/

/-- The integer in the parameter at an index. -/
def value? (texts : List (List Char)) (index : Nat) : Option Int :=
  texts[index]?.bind fun text => Text.Integer.literal? (Text.trim text)

/-- The integers in the first parameters. -/
def values? (texts : List (List Char)) (count : Nat) : Option (List Int) :=
  (List.range count).mapM (value? texts)

/-- The file name in the first parameter. -/
def name? (texts : List (List Char)) : Option String :=
  (texts[0]?.map Text.trim).bind fun name =>
    if name.isEmpty then none else some (String.ofList name)

end Script

/-! ## Commands and lines -/

namespace Compiler

open Script

/-- The content of a file that a script names, decoded into an image of its own,
and the end of what was written there. -/
def content? (compiler : Compiler) (name : String) : Option (Image × Nat) :=
  match compiler.read (compiler.resolve name) with
  | .error _ => none
  | .ok text =>
    let loaded := (Image.blank compiler.settings.targetMemorySize).decode text 0
    match loaded.result with
    | .error _ => none
    | .ok stop => some (loaded.image, stop)

/-- The opcode for programming a memory. -/
def programCode : Memory → UInt8
  | .flash => 0x05
  | .eeprom => 0x08

/-- The bytes for one block of data: opcode, target address, length, page size and
the cells. -/
def denoteBlock (memory : Memory) (start pageSize : Int) (image : Image) (block : Block) :
    List UInt8 :=
  [programCode memory] ++ word 4 (start + block.first) ++ word 4 block.length ++
    word 2 pageSize ++ image.slice block.first (block.last + 1)

/-- The bytes for all blocks of data in a file. -/
def denoteFile (compiler : Compiler) (memory : Memory) (name : String) (start pageSize : Int) :
    Option (List UInt8) := do
  let (image, stop) ← compiler.content? name
  let bound := compiler.settings.bound pageSize.toNat
  return (Block.blocks bound (image.slice 0 stop)).flatMap
    (denoteBlock memory start pageSize image)

/-- The bytes that a command denotes, if its parameters are as they should be. -/
def denoteCommand (compiler : Compiler) (command : Command) (texts : List (List Char)) :
    Option (List UInt8) :=
  match command with
  | .connect => do
    let frequency ← value? texts 0
    return [0x01, UInt8.ofNat (Clock.divider frequency)]
  | .disconnect => some [0x02]
  | .spiWrite => do
    let values ← values? texts 4
    return 0x03 :: values.flatMap (word 1)
  | .spiVerify => do
    let values ← values? texts 5
    return 0x04 :: values.flatMap (word 1)
  | .program memory => do
    let name ← name? texts
    let start ← value? texts 1
    let pageSize ← value? texts 2
    compiler.denoteFile memory name start pageSize
  | .wait => do
    let value ← value? texts 0
    return 0x06 :: word 1 value
  | .countDown => do
    let value ← value? texts 0
    return 0x07 :: word 2 value
  | .finish => some [0xFF]

/-- The bytes that a line denotes. -/
def denoteLine (compiler : Compiler) (line : List Char) : Option (List UInt8) :=
  match Line.parse line with
  | .empty | .unknown _ => some []
  | .known command texts => compiler.denoteCommand command texts

/-- The bytes that lines denote, one after the other. -/
def denoteLines (compiler : Compiler) (lines : List (List Char)) : Option (List UInt8) :=
  (lines.mapM compiler.denoteLine).map List.flatten

/-- The bytes that a script denotes. -/
def denote (compiler : Compiler) (script : String) : Option (List UInt8) :=
  compiler.denoteLines (Text.lines script.toList)

end Compiler

end IspStream
