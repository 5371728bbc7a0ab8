import IspStream.Image.Basic
import IspStream.Record.Printer

/-!
# Encoding an image

The cells are written in chunks of sixteen, in ascending order, and a chunk of
blank cells is left out.  Entering a window of 64 KiB other than the first one
moves the linear base there, whether or not the window holds data.
-/

namespace IspStream.Image

/-- The number of cells in a chunk. -/
def chunkSize : Nat := 16

/-- The records written so far, and the window that the linear base points to. -/
structure Encoding where
  /-- The records in order. -/
  records : Array Record := #[]
  /-- The number of the current window. -/
  window : Nat := 0

namespace Encoding

/-- Moves the linear base to the window of a position, unless it is there. -/
def enter (encoding : Encoding) (position : Nat) : Encoding :=
  let window := position / 0x10000
  if window = encoding.window then encoding
  else { records := encoding.records.push (Record.window window), window }

/-- Adds the record of a chunk, unless all its cells are blank. -/
def add (encoding : Encoding) (position : Nat) (cells : List UInt8) : Encoding :=
  if cells.all (· == IspStream.blank) then encoding
  else { encoding with records := encoding.records.push (Record.chunk position cells) }

end Encoding

/-- The records of the first `length` cells. -/
def records (image : Image) (length : Nat) : List Record :=
  let stop := min length image.capacity
  let chunks := List.range ((stop + chunkSize - 1) / chunkSize)
  let encoding := chunks.foldl
    (fun encoding index =>
      let position := index * chunkSize
      let cells := image.slice position (min (position + chunkSize) stop)
      (encoding.enter position).add position cells)
    ({} : Encoding)
  encoding.records.toList ++ [Record.closing]

/-- The first `length` cells as hex text. -/
def hexText (image : Image) (length : Nat) : String := Record.text (image.records length)

/-! ## Writing into limited room -/

/-- What a text leaves in a writer with limited room. -/
structure Written where
  /-- The part of the text that fits. -/
  text : String
  /-- Whether that is all of it. -/
  complete : Bool
deriving DecidableEq, Repr

/-- Passes pieces to a writer with room for `room` characters, which takes as much
of a piece as fits and then nothing more. -/
def writePieces : Nat → List (List Char) → List Char × Bool
  | _, [] => ([], true)
  | room, piece :: rest =>
    if piece.length ≤ room then
      let (written, complete) := writePieces (room - piece.length) rest
      (piece ++ written, complete)
    else (piece.take room, false)

/-- Writes the hex text of the first `length` cells into limited room, record by
record, each with its line end as a piece of its own. -/
def encode (image : Image) (length room : Nat) : Written :=
  let lines := (image.records length).filterMap fun record => record.print.toOption
  let (written, complete) := writePieces room (lines.flatMap fun line => [line, ['\n']])
  ⟨String.ofList written, complete⟩

end IspStream.Image
