import IspStream.Proofs.Encoding.Layout
import Mathlib.Data.List.Basic

/-!
# Encoding into limited room

A writer with limited room takes the bytes of a piece as far as they fit, and a call for which
it takes nothing fails.  The encoder writes record by record, each line and each line end as a
piece of its own, from three places of its loop, and stops at the first failure.  What the
writer is left with is the text of the image up to its room, wherever that falls, and the
encoder succeeds exactly if the text fits (`encode_bounded`).

## Strategy

What a step of the encoder does to any writer is said by one list of bytes, those that it
`Passes` on: as many of them as there is room for are taken, and the step succeeds if these are
all.  Steps in sequence pass on their bytes in sequence (`Passes.andThen`), because behind a
failure there is no room left.  So the whole loop passes on the lines of the records, and these
make up the text.
-/

namespace IspStream

/-- The bytes of a text. -/
def Text.octets (text : List Char) : List UInt8 := text.flatMap String.utf8EncodeChar

theorem Text.octets_append (first second : List Char) :
    octets (first ++ second) = octets first ++ octets second :=
  List.flatMap_append

/-- A writer with limited room. -/
structure Sink where
  /-- The bytes that it has taken. -/
  taken : List UInt8
  /-- How many more it takes. -/
  room : Nat
deriving DecidableEq, Repr

namespace Sink

/-! ## The writer -/

/-- The writer behind bytes, of which it takes as many as there is room for. -/
def fill (sink : Sink) (bytes : List UInt8) : Sink :=
  ⟨sink.taken ++ bytes.take sink.room, sink.room - bytes.length⟩

/-- One call of the writer, which answers how many bytes it has taken. -/
def write (sink : Sink) (bytes : List UInt8) : Sink × Nat :=
  (sink.fill bytes, min sink.room bytes.length)

/-- Calls the writer until it has taken all bytes.  A call for which it takes none fails. -/
def writeAll (bytes : List UInt8) (sink : Sink) : Sink × Bool :=
  if _hbytes : bytes = [] then (sink, true)
  else
    let (after, count) := sink.write bytes
    if _hcount : count = 0 then (after, false) else writeAll (bytes.drop count) after
termination_by bytes.length
decreasing_by
  have := List.length_pos_of_ne_nil _hbytes
  rw [List.length_drop]
  omega

/-- Leaves the writer alone. -/
def skip (sink : Sink) : Sink × Bool := (sink, true)

/-- One step and then another one, unless the first one fails. -/
def andThen (first second : Sink → Sink × Bool) (sink : Sink) : Sink × Bool :=
  match first sink with
  | (after, true) => second after
  | (after, false) => (after, false)

/-- Writes the line of a record and its line end. -/
def writeRecord (record : Record) : Sink → Sink × Bool :=
  match record.print with
  | .ok line => andThen (writeAll (Text.octets line)) (writeAll (Text.octets ['\n']))
  | .error _ => fun sink => (sink, false)

end Sink

namespace Image

open Sink

/-- Writes the records of chunks, when the linear base points to the given window. -/
def writeChunks (image : Image) (stop : Nat) : Nat → List Nat → Sink → Sink × Bool
  | _, [] => skip
  | window, index :: rest =>
    let position := index * chunkSize
    let cells := image.slice position (min (position + chunkSize) stop)
    andThen
      (if position / 0x10000 = window then skip
        else writeRecord (Record.window (position / 0x10000)))
      (andThen
        (if cells.all (· == IspStream.blank) then skip
          else writeRecord (Record.chunk position cells))
        (image.writeChunks stop (position / 0x10000) rest))

/-- Writes the records of the first `length` cells, one after the other. -/
def writeHexText (image : Image) (length : Nat) : Sink → Sink × Bool :=
  let stop := min length image.capacity
  andThen (image.writeChunks stop 0 (List.range ((stop + chunkSize - 1) / chunkSize)))
    (writeRecord Record.closing)

end Image

/-! ## Steps and the bytes that they pass on -/

namespace Sink

/-- Whatever the writer, a step passes on certain bytes: the writer takes as many of them as
there is room for, and the step succeeds if these are all. -/
def Passes (step : Sink → Sink × Bool) (bytes : List UInt8) : Prop :=
  ∀ sink, step sink = (sink.fill bytes, decide (bytes.length ≤ sink.room))

variable {first second : Sink → Sink × Bool} {one two : List UInt8} {sink : Sink}

@[simp] theorem fill_nil (sink : Sink) : sink.fill [] = sink := by
  simp [fill]

theorem fill_fill (sink : Sink) (one two : List UInt8) :
    (sink.fill one).fill two = sink.fill (one ++ two) := by
  simp only [fill, List.take_append, List.append_assoc, List.length_append, Nat.sub_sub]

/-- A full writer takes nothing. -/
theorem fill_of_room_eq_zero (h : sink.room = 0) (bytes : List UInt8) : sink.fill bytes = sink := by
  obtain ⟨taken, room⟩ := sink
  cases h
  simp [fill]

theorem passes_skip : Passes skip [] := fun sink => by simp [skip]

/-- Behind a failure there is no room for the bytes of the second step. -/
theorem Passes.andThen (hfirst : Passes first one) (hsecond : Passes second two) :
    Passes (andThen first second) (one ++ two) := by
  intro sink
  rw [Sink.andThen, hfirst sink, ← fill_fill, List.length_append]
  have hroom : (sink.fill one).room = sink.room - one.length := rfl
  by_cases hfits : one.length ≤ sink.room
  · have hboth : two.length ≤ (sink.fill one).room ↔ one.length + two.length ≤ sink.room := by
      omega
    simp only [hfits, decide_true, hsecond (sink.fill one), hboth]
  · have hboth : ¬one.length + two.length ≤ sink.room := by omega
    have hfull : (sink.fill one).room = 0 := by omega
    simp only [hfits, decide_false, hboth]
    rw [fill_of_room_eq_zero hfull]

theorem writeAll_of_ne_nil {bytes : List UInt8} (h : bytes ≠ []) :
    writeAll bytes sink =
      if min sink.room bytes.length = 0 then (sink.fill bytes, false)
      else writeAll (bytes.drop (min sink.room bytes.length)) (sink.fill bytes) := by
  rw [writeAll, dif_neg h]
  rfl

/-- Calling the writer again and again comes to the same as one piece. -/
theorem passes_writeAll (bytes : List UInt8) : Passes (writeAll bytes) bytes := by
  intro sink
  induction hlength : bytes.length using Nat.strong_induction_on generalizing bytes sink with
  | _ length ih =>
      subst hlength
      by_cases hnone : bytes = []
      · rw [hnone, writeAll]
        exact passes_skip sink
      have hpositive := List.length_pos_of_ne_nil hnone
      have hroom : (sink.fill bytes).room = sink.room - bytes.length := rfl
      rw [writeAll_of_ne_nil hnone]
      split
      · rename_i hcount
        rw [decide_eq_false (by omega)]
      · rename_i hcount
        rw [ih _ (by rw [List.length_drop]; omega) _ _ rfl, List.length_drop]
        -- either nothing is left of the bytes or the writer is full
        rcases Nat.le_total bytes.length sink.room with hfits | hfull
        · rw [Nat.min_eq_right hfits, List.drop_length, fill_nil, decide_eq_true hfits,
            decide_eq_true (by omega)]
        · rw [Nat.min_eq_left hfull, fill_of_room_eq_zero (by omega)]
          congr 2
          exact propext (by omega)

theorem passes_writeRecord {record : Record} (h : record.data.length ≤ 255) :
    Passes (writeRecord record) (Text.octets (record.line ++ ['\n'])) := by
  rw [writeRecord, Record.print_of_length_le h, Text.octets_append]
  exact (passes_writeAll _).andThen (passes_writeAll _)

end Sink

/-! ## The encoder -/

namespace Image

open Sink Record

variable {image : Image} {stop : Nat}

/-- The bytes for records, one line behind the other. -/
def lineBytes (records : List Record) : List UInt8 :=
  Text.octets ((records.map line).flatMap (· ++ ['\n']))

theorem lineBytes_append (first second : List Record) :
    lineBytes (first ++ second) = lineBytes first ++ lineBytes second := by
  simp [lineBytes, Text.octets]

theorem lineBytes_singleton (record : Record) :
    lineBytes [record] = Text.octets (record.line ++ ['\n']) := by
  simp [lineBytes]

theorem passes_window (index : Nat) :
    Passes (if chunkWindow index = chunkWindow (index - 1) then skip
      else writeRecord (Record.window (chunkWindow index))) (lineBytes (windowRecords index)) := by
  have hlength : (Record.window (chunkWindow index)).data.length ≤ 255 := by
    rw [Record.window, length_bigEndian]
    decide
  cases index with
  | zero => exact passes_skip
  | succ index =>
      rw [Nat.add_sub_cancel, windowRecords]
      by_cases hsame : chunkWindow (index + 1) = chunkWindow index
      · rw [if_pos hsame, if_neg fun h => chunkWindow_succ.mp hsame h.2]
        exact passes_skip
      · rw [if_neg hsame, if_pos ⟨Nat.succ_pos index,
          Classical.not_not.mp (mt chunkWindow_succ.mpr hsame)⟩, lineBytes_singleton]
        exact passes_writeRecord hlength

theorem passes_chunk (image : Image) (stop index : Nat) :
    Passes (if (image.chunkCells stop index).all (· == IspStream.blank) then skip
      else writeRecord (Record.chunk (chunkStart index) (image.chunkCells stop index)))
      (lineBytes (image.cellRecords stop index)) := by
  rw [cellRecords]
  split
  · exact passes_skip
  · rw [lineBytes_singleton]
    exact passes_writeRecord (length_chunkCells_le.trans (by decide))

/-- The loop passes on the lines of all its records.  In front of a chunk the linear base
points to the window of the chunk before. -/
theorem passes_writeChunks (image : Image) (stop first count : Nat) :
    Passes (image.writeChunks stop (chunkWindow (first - 1)) (List.range' first count))
      (lineBytes ((List.range' first count).flatMap fun index =>
        windowRecords index ++ image.cellRecords stop index)) := by
  induction count generalizing first with
  | zero => exact passes_skip
  | succ count ih =>
      rw [List.range'_succ, List.flatMap_cons, lineBytes_append, lineBytes_append,
        List.append_assoc]
      exact (passes_window first).andThen ((passes_chunk image stop first).andThen (ih (first + 1)))

/-! ## The text -/

theorem toList_hexText (image : Image) (length : Nat) :
    (image.hexText length).toList = ((image.records length).map line).flatMap (· ++ ['\n']) :=
  toList_text fun _ => length_data_le_of_mem_records

/-- The text is passed on, with the room that there is. -/
theorem passes_writeHexText (image : Image) (length : Nat) :
    Passes (image.writeHexText length) (Text.octets (image.hexText length).toList) := by
  have hloop := image.passes_writeChunks (min length image.capacity) 0
    (chunkCount (min length image.capacity))
  have hclosing : Passes (writeRecord Record.closing) (lineBytes [Record.closing]) := by
    rw [lineBytes_singleton]
    exact passes_writeRecord (Nat.zero_le 255)
  rw [toList_hexText, records_eq]
  have hboth := hloop.andThen hclosing
  rw [← lineBytes_append, ← List.range_eq_range'] at hboth
  exact hboth

/-- Pieces with limited room for them are the text that they make up, cut off. -/
theorem writePieces_eq (room : Nat) (pieces : List (List Char)) :
    writePieces room pieces =
      (pieces.flatten.take room, decide (pieces.flatten.length ≤ room)) := by
  induction pieces generalizing room with
  | nil => simp [writePieces]
  | cons piece rest ih =>
      rw [writePieces, List.flatten_cons, List.take_append, List.length_append]
      split
      · rename_i hfits
        have hboth : rest.flatten.length ≤ room - piece.length ↔
            piece.length + rest.flatten.length ≤ room := by
          omega
        simp only [ih, List.take_of_length_le hfits, hboth]
      · rename_i hfull
        rw [Nat.sub_eq_zero_of_le (by omega), List.take_zero, List.append_nil,
          decide_eq_false (by omega)]

theorem encode_eq (image : Image) (length room : Nat) :
    image.encode length room = ⟨String.ofList ((image.hexText length).toList.take room),
      decide ((image.hexText length).toList.length ≤ room)⟩ := by
  have hpieces : (((image.records length).filterMap fun record => record.print.toOption).flatMap
      fun line => [line, ['\n']]).flatten = (image.hexText length).toList := by
    rw [hexText, text, String.toList_join, List.flatMap_map, List.flatten_eq_flatMap,
      List.flatMap_assoc]
    simp
  rw [encode]
  simp only [writePieces_eq, hpieces]

/-! ## Its bytes -/

/-- An ASCII text has one byte for each of its characters. -/
theorem octets_of_ascii {text : List Char} (h : ∀ character ∈ text, character.toNat < 128) :
    Text.octets text = text.map fun character => character.val.toUInt8 := by
  rw [Text.octets, ← List.flatMap_singleton' (text.map _), List.flatMap_map]
  refine List.flatMap_congr fun character hmem => String.utf8EncodeChar_eq_singleton ?_
  have hsmall : character.val ≤ 0x7F := by
    rw [UInt32.le_iff_toNat_le]
    exact Nat.le_of_lt_succ (h character hmem)
  exact if_pos hsmall

theorem toUTF8_ofList (text : List Char) :
    (String.ofList text).toUTF8.data.toList = Text.octets text := by
  rw [String.toUTF8, String.toByteArray_ofList, List.utf8Encode, List.data_toByteArray]
  rfl

theorem ascii_hexText {character : Char} {length : Nat}
    (h : character ∈ (image.hexText length).toList) : character.toNat < 128 := by
  rw [toList_hexText, List.flatMap_map, List.mem_flatMap] at h
  obtain ⟨record, -, hmem⟩ := h
  rcases List.mem_append.mp hmem with hline | hfeed
  · exact lt_of_mem_line hline
  · rw [List.mem_singleton.mp hfeed]
    decide

/-- **Encoding into limited room.**  The bytes that fit are the first ones of the text, up to
the limit, and encoding succeeds exactly if these are all.  A writer with room for as many
bytes is left with just these, however the records are cut. -/
theorem encode_bounded (image : Image) (length limit : Nat) :
    let all := (image.hexText length).toUTF8.data.toList
    (image.encode length limit).text.toUTF8.data.toList = all.take (min limit all.length) ∧
      ((image.encode length limit).complete = true ↔ all.length ≤ limit) ∧
      image.writeHexText length ⟨[], limit⟩ =
        (⟨all.take (min limit all.length), limit - all.length⟩,
          (image.encode length limit).complete) := by
  intro all
  have hall : all = Text.octets (image.hexText length).toList := by
    rw [← toUTF8_ofList, String.ofList_toList]
  have hascii : ∀ character ∈ (image.hexText length).toList, character.toNat < 128 :=
    fun _ => ascii_hexText
  have hlength : all.length = (image.hexText length).toList.length := by
    rw [hall, octets_of_ascii hascii, List.length_map]
  rw [← List.take_eq_take_min, encode_eq]
  simp only [toUTF8_ofList, decide_eq_true_eq, ← hlength, true_and]
  refine ⟨?_, ?_⟩
  · rw [hall, octets_of_ascii hascii, octets_of_ascii fun character hmem =>
      hascii character (List.mem_of_mem_take hmem), List.map_take]
  · rw [image.passes_writeHexText length ⟨[], limit⟩, ← hall]
    rfl

end Image

end IspStream
