import IspStream.Proofs.Encoding.Restore
import IspStream.Proofs.Safety.Operations

/-!
# Encoding without a hazard

Encoding cuts a buffer into chunks and creates a record for each of them that is not blank.
Creating a record fails for a payload that is too long, and none of these payloads is: a
chunk has sixteen cells at most, and a window record two bytes.  So every record has its
line, and the guarded encoder, which carries the lines along instead of the records, is in
step with the one that runs (`lines_eq`).
-/

namespace IspStream.Guarded

variable {image : Image} {length stop : Nat} {buffer : List UInt8}

/-! ## Guarded encoding -/

/-- The line of a record, which has to have one. -/
def create (record : Record) : Checked (List Char) := expect record.print.toOption

/-- The lines written so far, and the window that the linear base points to. -/
structure Progress where
  /-- The lines in order. -/
  lines : List (List Char) := []
  /-- The number of the current window. -/
  window : Nat := 0

/-- Moves the linear base to the window of a position, unless it is there. -/
def enter (progress : Progress) (position : Nat) : Checked Progress := do
  if position / 0x10000 = progress.window then return progress
  let line ← create (Record.window (position / 0x10000))
  return { lines := progress.lines ++ [line], window := position / 0x10000 }

/-- Writes the line of a chunk, unless all its cells are blank. -/
def emitChunk (progress : Progress) (position : Nat) (cells : List UInt8) : Checked Progress := do
  if cells.all (· == IspStream.blank) then return progress
  let line ← create (Record.chunk position cells)
  return { progress with lines := progress.lines ++ [line] }

/-- Encodes one chunk of a buffer. -/
def encodeChunk (buffer : List UInt8) (progress : Progress) (index : Nat) : Checked Progress := do
  let position ← multiply index Image.chunkSize
  let cells ← slice buffer position (min (position + Image.chunkSize) buffer.length)
  let entered ← enter progress position
  emitChunk entered position cells

/-- The lines of the first `length` cells. -/
def lines (image : Image) (length : Nat) : Checked (List (List Char)) := do
  let stop := min length image.capacity
  let buffer ← slice image.cells.toList 0 stop
  let chunks := List.range ((stop + Image.chunkSize - 1) / Image.chunkSize)
  let progress ← chunks.foldlM (encodeChunk buffer) {}
  let last ← create Record.closing
  return progress.lines ++ [last]

def hexText (image : Image) (length : Nat) : Checked String := do
  let lines ← lines image length
  return String.join (lines.map fun line => String.ofList (line ++ ['\n']))

def encode (image : Image) (length room : Nat) : Checked Image.Written := do
  let lines ← lines image length
  let (written, complete) := Image.writePieces room (lines.flatMap fun line => [line, ['\n']])
  return ⟨String.ofList written, complete⟩

/-! ## Records with a line -/

/-- What the guarded encoder holds when the encoder holds some records. -/
def progressOf (encoding : Image.Encoding) : Progress where
  lines := encoding.records.toList.filterMap fun record => record.print.toOption
  window := encoding.window

theorem create_eq {record : Record} (h : record.data.length ≤ 255) :
    create record = .ok record.line ∧ record.print.toOption = some record.line := by
  rw [create, Record.print_of_length_le h]
  exact ⟨rfl, rfl⟩

theorem progressOf_push {record : Record} (h : record.data.length ≤ 255)
    (encoding : Image.Encoding) (window : Nat) :
    progressOf ⟨encoding.records.push record, window⟩ =
      ⟨(progressOf encoding).lines ++ [record.line], window⟩ := by
  unfold progressOf
  rw [Array.toList_push, List.filterMap_append, List.filterMap_cons, (create_eq h).2]
  rfl

theorem enter_eq (encoding : Image.Encoding) (position : Nat) :
    enter (progressOf encoding) position = .ok (progressOf (encoding.enter position)) := by
  have hlength : (Record.window (position / 0x10000)).data.length ≤ 255 := by
    rw [Record.window, length_bigEndian]
    decide
  have hrunning : encoding.enter position =
      if position / 0x10000 = encoding.window then encoding
      else ⟨encoding.records.push (Record.window (position / 0x10000)), position / 0x10000⟩ := rfl
  have hwindow : (progressOf encoding).window = encoding.window := rfl
  rw [hrunning, enter, hwindow]
  by_cases hsame : position / 0x10000 = encoding.window
  · rw [if_pos hsame, if_pos hsame]
    rfl
  · rw [if_neg hsame, if_neg hsame, progressOf_push hlength, (create_eq hlength).1]
    rfl

theorem emitChunk_eq {cells : List UInt8} (h : cells.length ≤ 255) (encoding : Image.Encoding)
    (position : Nat) :
    emitChunk (progressOf encoding) position cells =
      .ok (progressOf (encoding.add position cells)) := by
  have hlength : (Record.chunk position cells).data.length ≤ 255 := h
  unfold emitChunk Image.Encoding.add
  split
  · rfl
  · rw [progressOf_push hlength, (create_eq hlength).1]
    rfl

/-! ## All chunks -/

theorem extract_slice {first last : Nat} (hlast : last ≤ stop) :
    (image.slice 0 stop).extract first last = image.slice first last := by
  rw [Image.slice, ← Array.toList_extract, Array.extract_extract, Nat.zero_add, Nat.zero_add,
    Nat.min_eq_left hlast]
  rfl

theorem encodeChunk_eq (h : image.capacity < wordLimit) (hstop : stop ≤ image.capacity)
    (encoding : Image.Encoding) {index : Nat} (hindex : index < Image.chunkCount stop) :
    encodeChunk (image.slice 0 stop) (progressOf encoding) index =
      .ok (progressOf ((encoding.enter (Image.chunkStart index)).add (Image.chunkStart index)
        (image.chunkCells stop index))) := by
  have hstart : Image.chunkStart index < stop := Image.lt_chunkCount_iff.mp hindex
  have hposition : multiply index Image.chunkSize = .ok (Image.chunkStart index) :=
    multiply_eq (Nat.lt_trans (Nat.lt_of_lt_of_le hstart hstop) h)
  have hbuffer : (image.slice 0 stop).length = stop := by
    rw [Image.length_slice]
    omega
  have hcells : slice (image.slice 0 stop) (Image.chunkStart index)
      (min (Image.chunkStart index + Image.chunkSize) stop) = .ok (image.chunkCells stop index) := by
    rw [slice_eq (by omega) (by omega), extract_slice (Nat.min_le_right ..)]
    rfl
  have hshort : (image.chunkCells stop index).length ≤ 255 :=
    Nat.le_trans Image.length_chunkCells_le (by decide)
  rw [encodeChunk, hposition]
  simp only [bind, Except.bind, hbuffer, hcells, enter_eq]
  exact emitChunk_eq hshort _ _

/-- Every record that encoding creates has a line. -/
theorem lines_eq (h : image.capacity < wordLimit) (length : Nat) :
    lines image length =
      .ok ((image.records length).filterMap fun record => record.print.toOption) := by
  have hstop : min length image.capacity ≤ image.capacity := Nat.min_le_right ..
  have hbuffer : slice image.cells.toList 0 (min length image.capacity) =
      .ok (image.slice 0 (min length image.capacity)) := by
    rw [slice_eq (Nat.zero_le _) hstop, ← Array.toList_extract]
    rfl
  have hchunks : (List.range (Image.chunkCount (min length image.capacity))).foldlM
      (encodeChunk (image.slice 0 (min length image.capacity))) {} = .ok (progressOf _) :=
    foldlM_eq (fun encoding index hindex =>
      encodeChunk_eq h hstop encoding (List.mem_range.mp hindex)) {}
  obtain ⟨hclosing, hline⟩ : create Record.closing = .ok _ ∧ _ := create_eq (Nat.zero_le 255)
  rw [Image.chunkCount] at hchunks
  simp only [lines, hbuffer, hchunks, hclosing, bind, Except.bind]
  rw [Image.records, List.filterMap_append, List.filterMap_cons, hline]
  rfl

theorem hexText_eq (h : image.capacity < wordLimit) (length : Nat) :
    hexText image length = .ok (image.hexText length) := by
  rw [hexText, lines_eq h]
  rfl

/-- Encoding meets no hazard, however much room there is. -/
theorem encode_eq (h : image.capacity < wordLimit) (length room : Nat) :
    encode image length room = .ok (image.encode length room) := by
  rw [encode, lines_eq h]
  rfl

end IspStream.Guarded
