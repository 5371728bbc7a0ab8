import IspStream.Script.Plan
import IspStream.Text.Lines

/-!
# Compiling a script

The command stream is written onto a tape: an image with a position that only
moves forward.  Each script line is planned and then emitted, field by field.  The
first field that does not fit stops the compilation, and what was written before
it stays.

Every completed command reports the cells it was compiled into.
-/

namespace IspStream

/-- An image and the position where the next byte goes. -/
structure Tape where
  /-- The image. -/
  image : Image
  /-- The position, which may lie behind the end of the image. -/
  position : Nat

namespace Tape

/-- Whether there is room for bytes at the position. -/
def Fits (tape : Tape) (bytes : List UInt8) : Prop :=
  tape.position + bytes.length ≤ tape.image.capacity

instance (tape : Tape) (bytes : List UInt8) : Decidable (tape.Fits bytes) :=
  inferInstanceAs (Decidable (_ ≤ _))

/-- Writes bytes at the position and moves behind them. -/
def write (tape : Tape) (bytes : List UInt8) : Tape where
  image := (tape.image.store tape.position bytes).1
  position := tape.position + bytes.length

@[simp] theorem capacity_write (tape : Tape) (bytes : List UInt8) :
    (tape.write bytes).image.capacity = tape.image.capacity :=
  Image.capacity_store tape.image tape.position bytes

/-- Writes fields up to the first one that does not fit.  The second part of the
answer says whether all of them did. -/
def writeFields : Tape → List (List UInt8) → Tape × Bool
  | tape, [] => (tape, true)
  | tape, field :: rest =>
    if tape.Fits field then (tape.write field).writeFields rest else (tape, false)

/-- The error for a line that finds no room at the position. -/
def overflow (tape : Tape) (line : Nat) : Error :=
  .capacity (max tape.position tape.image.capacity) tape.image.capacity line

end Tape

namespace Script

/-- What emitting leaves behind. -/
structure Emission where
  /-- The tape behind the last field that fits. -/
  tape : Tape
  /-- The reports of the instructions emitted as a whole. -/
  notices : List Notice
  /-- Whether everything fits. -/
  complete : Bool

/-- Emits instructions up to the first one that does not fit. -/
def emit : Tape → List Part → Emission
  | tape, [] => ⟨tape, [], true⟩
  | tape, part :: rest =>
    match tape.writeFields part.instruction.fields with
    | (tape, true) =>
      let emission := emit tape rest
      { emission with notices := part.notices ++ emission.notices }
    | (tape, false) => ⟨tape, [], false⟩

/-- What compiling one line leaves behind. -/
structure LineOutcome where
  /-- The tape behind the line. -/
  tape : Tape
  /-- The notices in order. -/
  notices : List Notice := []
  /-- The error that stops the compilation. -/
  error? : Option Error := none

/-- Emits the plan of a command and reports it. -/
def emitPlan (tape : Tape) (line : Nat) (command : Command) (plan : Plan) : LineOutcome :=
  let start := tape.position
  let emission := emit tape plan.parts
  if emission.complete then
    { tape := emission.tape
      notices := emission.notices ++ plan.closing ++
        [.compiled line command start emission.tape.position] }
  else
    { tape := emission.tape
      notices := emission.notices
      error? := some (emission.tape.overflow line) }

end Script

namespace Compiler

open Script

/-- Compiles one numbered line. -/
def compileLine (compiler : Compiler) (number : Nat) (tape : Tape) (line : List Char) :
    LineOutcome :=
  match Line.parse line with
  | .empty => { tape }
  | .unknown word => { tape, notices := [.unknownCommand word number] }
  | .known command texts =>
    match compiler.plan number command texts with
    | ⟨notices, .error error⟩ => { tape, notices, error? := some error }
    | ⟨notices, .ok plan⟩ =>
      let outcome := emitPlan tape number command plan
      { outcome with notices := notices ++ outcome.notices }

/-- Compiles lines from the given line number on. -/
def compileLines (compiler : Compiler) : Nat → List (List Char) → Tape → Outcome
  | _, [], tape => .stop tape.image (.ok tape.position)
  | number, line :: rest, tape =>
    match compiler.compileLine number tape line with
    | ⟨tape, notices, none⟩ => (compiler.compileLines (number + 1) rest tape).after notices
    | ⟨tape, notices, some error⟩ => ⟨tape.image, notices, .error error⟩

/-- Compiles a script into an image from a position on.  The result is the position
behind the last instruction. -/
def compile (compiler : Compiler) (script : String) (image : Image) (position : Nat) : Outcome :=
  compiler.compileLines 1 (Text.lines script.toList) ⟨image, position⟩

/-- Compiles a script file. -/
def compileFile (compiler : Compiler) (path : String) (image : Image) (position : Nat) : Outcome :=
  match compiler.read path with
  | .error fault => .stop image (.error (.file path fault))
  | .ok script => compiler.compile script image position

/-- The files that a script refers to. -/
def references (compiler : Compiler) (script : String) : List String :=
  (Text.lines script.toList).filterMap fun line =>
    match Line.parse line with
    | .known command texts =>
      match Order.read ⟨command, texts⟩ with
      | .ok (.file request) => some (compiler.resolve request.name)
      | _ => none
    | _ => none

end Compiler

end IspStream
