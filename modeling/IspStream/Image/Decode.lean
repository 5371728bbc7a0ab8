import IspStream.Outcome
import IspStream.Record.Reader
import IspStream.Text.Blank
import IspStream.Text.Lines

/-!
# Decoding hex text

The lines of a hex text are read in order.  Each byte of a data record goes to its
relative address, which is the address field plus the linear base plus the segment
base plus the position in the record, and from there to the cell that lies `offset`
higher.  The two bases start at zero, and an address record replaces its own base
and leaves the other one alone.  The mark at the end of a file does not stop the
decoding.

The result is one past the highest relative address that was written, or zero if
nothing was.
-/

namespace IspStream

/-- The two address bases. -/
structure Bases where
  /-- The base that linear address records set. -/
  linear : Nat := 0
  /-- The base that segment address records set. -/
  segment : Nat := 0
deriving DecidableEq, Repr

namespace Bases

/-- The relative address of the first byte of a record. -/
def locate (bases : Bases) (record : Record) : Nat :=
  record.address.toNat + bases.linear + bases.segment

/-- The bases with a new linear base, given in units of 64 KiB. -/
def setLinear (bases : Bases) (value? : Option UInt16) : Bases :=
  { bases with linear := (value?.elim 0 UInt16.toNat) * 0x10000 }

/-- The bases with a new segment base, given in units of sixteen bytes. -/
def setSegment (bases : Bases) (value? : Option UInt16) : Bases :=
  { bases with segment := (value?.elim 0 UInt16.toNat) * 0x10 }

end Bases

/-- The end of the written addresses after bytes for a relative address. -/
def extendedEnd (stop address : Nat) (data : List UInt8) : Nat :=
  if data.isEmpty then stop else max stop (address + data.length)

namespace Image

/-- Decodes the lines from the given line number on.  `stop` is the end of the
relative addresses written so far. -/
def decodeLines (offset : Nat) : Nat → List (List Char) → Bases → Nat → Image → Outcome
  | _, [], _, stop, image => .stop image (.ok stop)
  | number, line :: rest, bases, stop, image =>
    match Text.trimEnd line with
    | [] => decodeLines offset (number + 1) rest bases stop image
    | content =>
      match Record.parse content with
      | .error fault => .stop image (.error (.record fault number))
      | .ok record =>
        match record.kind with
        | .data =>
          let address := bases.locate record
          match image.store (offset + address) record.data with
          | (image, none) =>
            decodeLines offset (number + 1) rest bases
              (extendedEnd stop address record.data) image
          | (image, some outside) =>
            .stop image (.error (.capacity outside image.capacity number))
        | .endOfFile => decodeLines offset (number + 1) rest bases stop image
        | .segmentAddress =>
          decodeLines offset (number + 1) rest (bases.setSegment record.addressValue?) stop image
        | .linearAddress =>
          decodeLines offset (number + 1) rest (bases.setLinear record.addressValue?) stop image
        | .other code =>
          (decodeLines offset (number + 1) rest bases stop image).after
            [.unknownRecord code number]

/-- Decodes hex text into an image, shifted up by an offset. -/
def decode (image : Image) (text : String) (offset : Nat) : Outcome :=
  decodeLines offset 1 (Text.lines text.toList) {} 0 image

end Image

end IspStream
