import IspStream.Bytes

/-!
# Blocks of data

A block is a region worth programming: it starts and ends at a cell that is not
blank, and a run of blank cells inside it is no longer than a bound.  A longer run
separates two blocks, so that a sparse memory becomes a few large writes.

A `Scan` goes through the cells once.  When a run of blank cells grows past the
bound it hands out the block before that run and stops on the blank cell at which
it noticed, from where the next block is searched.
-/

namespace IspStream

/-- A region of a memory, both ends included. -/
structure Block where
  /-- The first position. -/
  first : Nat
  /-- The last position. -/
  last : Nat
deriving DecidableEq, Repr

namespace Block

/-- The number of cells of a block. -/
def length (block : Block) : Nat := block.last - block.first + 1

/-- A position belongs to a block when it lies between its ends. -/
instance : Membership Nat Block where
  mem block position := block.first ≤ position ∧ position ≤ block.last

instance (position : Nat) (block : Block) : Decidable (position ∈ block) :=
  inferInstanceAs (Decidable (block.first ≤ position ∧ position ≤ block.last))

/-- The open block after a data cell at the given position. -/
def extend (opened : Option Block) (position : Nat) : Block :=
  match opened with
  | some block => { block with last := position }
  | none => ⟨position, position⟩

/-- Whether a blank cell at the given position ends the open block. -/
def closesAt (bound position : Nat) (opened : Option Block) : Bool :=
  match opened with
  | some block => decide (bound < position - block.last)
  | none => false

/-! ## Scanning -/

/-- The cells still to be scanned, and the position of the first of them. -/
structure Scan where
  /-- The cells ahead. -/
  cells : List UInt8
  /-- The position of the first cell ahead. -/
  position : Nat
deriving DecidableEq, Repr

namespace Scan

/-- The scan of a whole memory. -/
def start (cells : List UInt8) : Scan := ⟨cells, 0⟩

/-- Goes on until the open block is complete.  The block is that of the end of
the cells if none was opened or closed before. -/
def advance (bound : Nat) : List UInt8 → Nat → Option Block → Option Block × Scan
  | [], position, opened => (opened, ⟨[], position⟩)
  | cell :: rest, position, opened =>
    if cell = blank then
      if closesAt bound position opened then (opened, ⟨cell :: rest, position⟩)
      else advance bound rest (position + 1) opened
    else advance bound rest (position + 1) (some (extend opened position))

/-- The next block and the scan behind it. -/
def next (bound : Nat) (scan : Scan) : Option Block × Scan :=
  advance bound scan.cells scan.position none

theorem length_advance_le (bound : Nat) (cells : List UInt8) (position : Nat)
    (opened : Option Block) :
    (advance bound cells position opened).2.cells.length ≤ cells.length := by
  induction cells generalizing position opened with
  | nil => simp [advance]
  | cons cell rest ih =>
      unfold advance
      repeat' split
      · simp
      · exact Nat.le_succ_of_le (ih _ _)
      · exact Nat.le_succ_of_le (ih _ _)

/-- Each block takes at least one cell, so that a scan comes to its end. -/
theorem length_next_lt {bound : Nat} {scan after : Scan} {block : Block}
    (h : scan.next bound = (some block, after)) : after.cells.length < scan.cells.length := by
  obtain ⟨cells, position⟩ := scan
  unfold next at h
  simp only at h
  induction cells generalizing position with
  | nil => simp [advance] at h
  | cons cell rest ih =>
      unfold advance at h
      split at h
      · exact Nat.lt_succ_of_lt (ih (position + 1) (by simpa [closesAt] using h))
      · have hle := length_advance_le bound rest (position + 1) (some (extend none position))
        rw [h] at hle
        exact Nat.lt_succ_of_le hle

/-- All blocks ahead, and the scan at its end. -/
def run (bound : Nat) (scan : Scan) : List Block × Scan :=
  match h : scan.next bound with
  | (none, after) => ([], after)
  | (some block, after) =>
    have : after.cells.length < scan.cells.length := length_next_lt h
    let (blocks, last) := after.run bound
    (block :: blocks, last)
termination_by scan.cells.length

end Scan

/-- The blocks of a memory in ascending order. -/
def blocks (bound : Nat) (cells : List UInt8) : List Block := ((Scan.start cells).run bound).1

example : blocks 1 [0xFF, 1, 0xFF, 2, 0xFF, 0xFF, 3] = [⟨1, 3⟩, ⟨6, 6⟩] := by decide +kernel

end Block

end IspStream
