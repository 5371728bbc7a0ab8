import IspStream.Proofs.Encoding.Restore
import IspStream.Proofs.Records.Damage
import Mathlib.Data.List.Sort

/-!
# The layout of a hex text

The encoder goes through the image with a window that it moves, but its text can be read
off position by position: `recordsAt` says which records stand for the chunk at a multiple
of sixteen, without any regard to the chunks before it, and `laidOut_hexText` that the text
consists of these and of the record that closes it.

What a reader of the text relies on follows from this description.  No chunk reaches over
the end of its window, since windows are multiples of sixteen long.  And the bases that a
decoder holds in front of a chunk are those of its window, so that every byte is written at
its own position and the addresses ascend.
-/

namespace IspStream

/-- Digits and the start code are ASCII. -/
theorem Record.lt_of_mem_line {record : Record} {character : Char} (h : character ∈ record.line) :
    character.toNat < 128 := by
  rcases List.mem_cons.mp h with rfl | hdigit
  · decide
  · have := Text.Hex.toNat_of_isDigit (Text.Hex.isDigit_of_mem_bytes hdigit)
    omega

namespace Image

open Record

/-! ## The description -/

/-- The positions of the chunks below `stop`: the multiples of sixteen. -/
def chunkPositions (stop : Nat) : List Nat := (List.range stop).filter (· % 16 = 0)

/-- The cells of the chunk at a position, as far as they lie below `stop`. -/
def cellsAt (image : Image) (stop position : Nat) : List UInt8 :=
  image.slice position (min (position + 16) stop)

/-- The records for the chunk at a position.  The first chunk of a window, but for that of the
first window, is announced by the number of the window, and a blank chunk has no record of its
own. -/
def recordsAt (image : Image) (stop position : Nat) : List Record :=
  (if 0 < position ∧ position % 65536 = 0 then
    [{ address := 0, kind := .linearAddress, data := bigEndian 2 (position / 65536) }]
  else []) ++
  if (image.cellsAt stop position).all (· == IspStream.blank) then []
  else
    [{ address := UInt16.ofNat (position % 65536), kind := .data,
       data := image.cellsAt stop position }]

/-- The records of a hex text of the first `stop` cells. -/
def layout (image : Image) (stop : Nat) : List Record :=
  (chunkPositions stop).flatMap (image.recordsAt stop) ++
    [{ address := 0, kind := .endOfFile, data := [] }]

/-- A text is the hex text of the first `stop` cells of an image. -/
structure LaidOut (image : Image) (stop : Nat) (text : String) : Prop where
  /-- The text consists of the lines of the records, in order and with a line feed each. -/
  text_eq : text.toList = ((image.layout stop).map line).flatMap (· ++ ['\n'])
  /-- So its lines are these. -/
  lines_eq : Text.lines text.toList = (image.layout stop).map line
  /-- All of it is ASCII. -/
  ascii : ∀ character ∈ text.toList, character.toNat < 128
  /-- No record is without a line. -/
  printed : ∀ record ∈ image.layout stop, record.print = .ok record.line
  /-- Every line is accepted and stands for its record. -/
  accepted : ∀ record ∈ image.layout stop, parse record.line = .ok record
  /-- The digits of every line are those of bytes that sum to zero. -/
  checked : ∀ record ∈ image.layout stop, ∃ bytes : List UInt8,
    record.line = ':' :: Text.Hex.bytes bytes ∧ bytes.sum = 0
  /-- A window record carries the number of the window as it is. -/
  windows : ∀ record ∈ image.layout stop, record.kind = .linearAddress →
    ∃ position < stop, position % 65536 = 0 ∧ 0 < position ∧
      record.addressValue?.map UInt16.toNat = some (position / 65536)
  /-- A data record stays inside its window. -/
  inside : ∀ record ∈ image.layout stop, record.kind = .data →
    record.address.toNat + record.data.length ≤ 65536
  /-- A data record holds data. -/
  holds_data : ∀ record ∈ image.layout stop, record.kind = .data →
    ∃ byte ∈ record.data, byte ≠ IspStream.blank
  /-- The addresses that a decoder of the text writes ascend. -/
  ascending : (writesOfText text).Pairwise fun earlier later => earlier.address < later.address

variable {image : Image} {stop length position : Nat} {record : Record}

/-! ## Positions and chunks -/

theorem mem_chunkPositions :
    position ∈ chunkPositions stop ↔ position < stop ∧ position % 16 = 0 := by
  simp [chunkPositions]

theorem pairwise_chunkPositions (stop : Nat) : (chunkPositions stop).Pairwise (· < ·) :=
  List.pairwise_lt_range.filter _

/-- The chunks stand at the multiples of sixteen. -/
theorem map_chunkStart (stop : Nat) :
    (List.range (chunkCount stop)).map chunkStart = chunkPositions stop := by
  have hascending : ((List.range (chunkCount stop)).map chunkStart).Pairwise (· < ·) := by
    refine List.pairwise_lt_range.map _ fun earlier later hlt => ?_
    simp only [chunkStart, chunkSize]
    omega
  refine hascending.eq_of_mem_iff (pairwise_chunkPositions stop) fun position => ?_
  simp only [List.mem_map, List.mem_range, lt_chunkCount_iff, mem_chunkPositions]
  constructor
  · rintro ⟨index, hindex, rfl⟩
    exact ⟨hindex, Nat.mul_mod_left ..⟩
  · rintro ⟨hposition, hmultiple⟩
    have hstart : chunkStart (position / 16) = position :=
      Nat.div_mul_cancel (Nat.dvd_of_mod_eq_zero hmultiple)
    exact ⟨position / 16, by rwa [hstart], hstart⟩

/-- What the encoder makes of a chunk depends on its position alone. -/
theorem recordsAt_chunkStart (image : Image) (stop index : Nat) :
    windowRecords index ++ image.cellRecords stop index =
      image.recordsAt stop (chunkStart index) := by
  have haddress : UInt16.ofNat (chunkStart index) = UInt16.ofNat (chunkStart index % 65536) := by
    rw [← UInt16.toNat_inj, UInt16.toNat_ofNat', UInt16.toNat_ofNat', Nat.mod_mod]
  have hfirst : 0 < index ↔ 0 < chunkStart index := by
    simp only [chunkStart, chunkSize]
    omega
  simp only [windowRecords, cellRecords, recordsAt, Record.chunk, haddress, hfirst]
  rfl

/-- The encoder writes the layout. -/
theorem records_eq_layout (image : Image) (length : Nat) :
    image.records length = image.layout (min length image.capacity) := by
  rw [records_eq, layout, ← map_chunkStart, List.flatMap_map]
  simp only [recordsAt_chunkStart]
  rfl

/-! ## The records of a layout -/

/-- A record of a layout announces a window, holds the cells of a chunk that is not blank, or
closes the text. -/
theorem cases_of_mem_layout (h : record ∈ image.layout stop) :
    (∃ position ∈ chunkPositions stop, (0 < position ∧ position % 65536 = 0) ∧
      record = ⟨0, .linearAddress, bigEndian 2 (position / 65536)⟩) ∨
    (∃ position ∈ chunkPositions stop,
      (image.cellsAt stop position).all (· == IspStream.blank) = false ∧
      record = ⟨UInt16.ofNat (position % 65536), .data, image.cellsAt stop position⟩) ∨
    record = ⟨0, .endOfFile, []⟩ := by
  rw [layout, List.mem_append, List.mem_flatMap, List.mem_singleton] at h
  rcases h with ⟨position, hposition, hrecord⟩ | hclosing
  · rcases List.mem_append.mp hrecord with hwindow | hcells
    · split at hwindow
      · rename_i hstart
        exact Or.inl ⟨position, hposition, hstart, List.mem_singleton.mp hwindow⟩
      · cases hwindow
    · split at hcells
      · cases hcells
      · rename_i hdata
        exact Or.inr (Or.inl ⟨position, hposition, Bool.eq_false_iff.mpr hdata,
          List.mem_singleton.mp hcells⟩)
  · exact Or.inr (Or.inr hclosing)

theorem windows_of_mem_layout (hspace : stop ≤ 2 ^ 32) (h : record ∈ image.layout stop)
    (hkind : record.kind = .linearAddress) :
    ∃ position < stop, position % 65536 = 0 ∧ 0 < position ∧
      record.addressValue?.map UInt16.toNat = some (position / 65536) := by
  obtain ⟨position, hposition, hstart, rfl⟩ | ⟨_, -, -, rfl⟩ | rfl := cases_of_mem_layout h
  · have hinside := (mem_chunkPositions.mp hposition).1
    have hsmall : position / 65536 < 2 ^ 16 := by omega
    have hvalue : ofBigEndian (bigEndian 2 (position / 65536)) = position / 65536 := by
      rw [ofBigEndian_bigEndian]
      exact Nat.mod_eq_of_lt hsmall
    refine ⟨position, hinside, hstart.2, hstart.1, ?_⟩
    rw [bigEndian_two] at hvalue
    rw [addressValue?, bigEndian_two]
    simp only [Option.map_some, hvalue, UInt16.toNat_ofNat', Nat.mod_eq_of_lt hsmall]
  · cases hkind
  · cases hkind

/-- Windows are multiples of sixteen long, so that no chunk reaches over their ends. -/
theorem inside_of_mem_layout (h : record ∈ image.layout stop) (hkind : record.kind = .data) :
    record.address.toNat + record.data.length ≤ 65536 := by
  obtain ⟨_, -, -, rfl⟩ | ⟨position, hposition, -, rfl⟩ | rfl := cases_of_mem_layout h
  · cases hkind
  · have hmultiple := (mem_chunkPositions.mp hposition).2
    simp only [cellsAt, length_slice, UInt16.toNat_ofNat']
    omega
  · cases hkind

theorem holds_data_of_mem_layout (h : record ∈ image.layout stop) (hkind : record.kind = .data) :
    ∃ byte ∈ record.data, byte ≠ IspStream.blank := by
  obtain ⟨_, -, -, rfl⟩ | ⟨position, -, hdata, rfl⟩ | rfl := cases_of_mem_layout h
  · cases hkind
  · obtain ⟨byte, hbyte, hne⟩ := List.all_eq_false.mp hdata
    exact ⟨byte, hbyte, fun hblank => hne (beq_iff_eq.mpr hblank)⟩
  · cases hkind

/-! ## The addresses -/

theorem address_of_mem_chunkWrites {write : Write} {index : Nat}
    (h : write ∈ image.chunkWrites stop index) :
    chunkStart index ≤ write.address ∧ write.address < chunkStart (index + 1) := by
  rw [chunkWrites] at h
  split at h
  · cases h
  · obtain ⟨place, hbyte, haddress⟩ := Write.mem_consecutive.mp h
    have hplace := (List.getElem?_eq_some_iff.mp hbyte).1
    have hlength : (image.chunkCells stop index).length ≤ chunkSize := length_chunkCells_le
    simp only [chunkStart, chunkSize] at haddress hlength ⊢
    omega

/-- One chunk is written behind the other. -/
theorem pairwise_writesOfText (h : min length image.capacity ≤ 2 ^ 32) :
    (writesOfText (image.hexText length)).Pairwise
      fun earlier later => earlier.address < later.address := by
  rw [writesOfText_hexText h, List.pairwise_flatMap]
  constructor
  · intro index _
    rw [chunkWrites]
    split
    · exact .nil
    · exact Write.pairwise_consecutive ..
  · refine List.pairwise_lt_range.imp fun {first second} hlt earlier hearlier later hlater => ?_
    have hend := (address_of_mem_chunkWrites hearlier).2
    have hstart := (address_of_mem_chunkWrites hlater).1
    simp only [chunkStart, chunkSize] at hend hstart
    omega

/-- **The shape of a hex text.**  The text of the first `length` cells is that of the layout,
which is laid out chunk by chunk, provided that the cells lie below 2^32. -/
theorem laidOut_hexText (image : Image) (length : Nat)
    (hspace : min length image.capacity ≤ 2 ^ 32) :
    LaidOut image (min length image.capacity) (image.hexText length) := by
  have hwellFormed : ∀ record ∈ image.layout (min length image.capacity), record.WellFormed := by
    rw [← records_eq_layout]
    exact fun record => wellFormed_of_mem_records
  have htext : (image.hexText length).toList =
      ((image.layout (min length image.capacity)).map line).flatMap (· ++ ['\n']) := by
    rw [hexText, records_eq_layout]
    exact toList_text fun record hrecord => (hwellFormed record hrecord).length_le
  refine {
    text_eq := htext
    lines_eq := by rw [lines_hexText, records_eq_layout]
    ascii := ?_
    printed := fun record hrecord => print_of_length_le (hwellFormed record hrecord).length_le
    accepted := fun record hrecord => (hwellFormed record hrecord).parse_line
    checked := fun record _ => ⟨record.bytes, rfl, sum_bytes record⟩
    windows := fun record => windows_of_mem_layout hspace
    inside := fun record => inside_of_mem_layout
    holds_data := fun record => holds_data_of_mem_layout
    ascending := pairwise_writesOfText hspace }
  intro character hcharacter
  rw [htext, List.flatMap_map, List.mem_flatMap] at hcharacter
  obtain ⟨record, -, hmem⟩ := hcharacter
  rcases List.mem_append.mp hmem with hline | hfeed
  · exact lt_of_mem_line hline
  · rw [List.mem_singleton.mp hfeed]
    decide

/-- A blank chunk and a part of a chunk. -/
theorem laidOut_hexText_seventeen :
    min 100 (Image.capacity ⟨Array.replicate 16 0xFF ++ #[0x12]⟩) ≤ 2 ^ 32 ∧
      hexText ⟨Array.replicate 16 0xFF ++ #[0x12]⟩ 100 = ":0100100012DD\n:00000001FF\n" ∧
      LaidOut ⟨Array.replicate 16 0xFF ++ #[0x12]⟩ 17 ":0100100012DD\n:00000001FF\n" := by
  have htext : hexText ⟨Array.replicate 16 0xFF ++ #[0x12]⟩ 100 =
      ":0100100012DD\n:00000001FF\n" := by decide +kernel
  have hlaidOut := laidOut_hexText ⟨Array.replicate 16 0xFF ++ #[0x12]⟩ 100 (by decide)
  exact ⟨by decide, htext, htext ▸ hlaidOut⟩

end Image

end IspStream
