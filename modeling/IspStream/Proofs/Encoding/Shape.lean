import IspStream.Image.Encode
import IspStream.Proofs.Decoding.AddressMap
import IspStream.Proofs.Records.RoundTrip

/-!
# The records of an image

Encoding keeps the window of the last chunk, and decoding keeps the base that the
last window record set.  Both are functions of the chunk alone: the chunk with
number `index` starts at `16 * index`, and its window is that position divided by
64 KiB.  So the encoder's output is the concatenation of what the single chunks
contribute (`records_eq`), and what it makes a decoder write is the concatenation
of the chunks that are not blank, each at its own position (`writesOf_records`).

The second statement needs the cells to lie below 2^32, since a window record has
two bytes for the number of the window.
-/

namespace IspStream.Image

open Record

/-! ## Chunks -/

def chunkStart (index : Nat) : Nat := index * chunkSize

/-- The window of a chunk. -/
def chunkWindow (index : Nat) : Nat := chunkStart index / 2 ^ 16

/-- The cells of a chunk below `stop`. -/
def chunkCells (image : Image) (stop index : Nat) : List UInt8 :=
  image.slice (chunkStart index) (min (chunkStart index + chunkSize) stop)

/-- The window record in front of a chunk that enters a window. -/
def windowRecords (index : Nat) : List Record :=
  if 0 < index ∧ chunkStart index % 2 ^ 16 = 0 then [Record.window (chunkWindow index)] else []

/-- The record of a chunk that is not blank. -/
def cellRecords (image : Image) (stop index : Nat) : List Record :=
  if (image.chunkCells stop index).all (· == IspStream.blank) then []
  else [Record.chunk (chunkStart index) (image.chunkCells stop index)]

/-- The number of chunks below `stop`. -/
def chunkCount (stop : Nat) : Nat := (stop + chunkSize - 1) / chunkSize

variable {image : Image} {stop index : Nat}

theorem length_chunkCells_le : (image.chunkCells stop index).length ≤ chunkSize := by
  rw [chunkCells, length_slice]
  omega

theorem lt_chunkCount_iff : index < chunkCount stop ↔ chunkStart index < stop := by
  simp only [chunkCount, chunkStart, chunkSize]
  omega

theorem getElem?_chunkCells (place : Nat) :
    (image.chunkCells stop index)[place]? =
      if place < chunkSize ∧ chunkStart index + place < stop then
        image.get? (chunkStart index + place)
      else none := by
  rw [chunkCells, getElem?_slice]
  congr 1
  exact propext (by omega)

/-- The window changes exactly in front of the chunks that have a window record. -/
theorem chunkWindow_succ :
    chunkWindow (index + 1) = chunkWindow index ↔ chunkStart (index + 1) % 2 ^ 16 ≠ 0 := by
  simp only [chunkWindow, chunkStart, chunkSize]
  omega

/-! ## The encoder's loop -/

/-- What the encoder holds behind the first chunks. -/
def encoded (image : Image) (stop count : Nat) : Encoding where
  records := ((List.range count).flatMap fun index =>
    windowRecords index ++ image.cellRecords stop index).toArray
  window := chunkWindow (count - 1)

/-- One chunk takes the encoder from one state to the next. -/
theorem encoded_succ (image : Image) (stop count : Nat) :
    image.encoded stop (count + 1) =
      ((image.encoded stop count).enter (chunkStart count)).add (chunkStart count)
        (image.chunkCells stop count) := by
  have henter : (image.encoded stop count).enter (chunkStart count) =
      ⟨((image.encoded stop count).records.toList ++ windowRecords count).toArray,
        chunkWindow count⟩ := by
    cases count with
    | zero => rfl
    | succ count =>
        -- either the window is still open, or the chunk is the first one in its window
        by_cases hwindow : chunkWindow (count + 1) = chunkWindow count
        · have hnone : windowRecords (count + 1) = [] :=
            if_neg fun h => chunkWindow_succ.mp hwindow h.2
          rw [hnone, List.append_nil]
          exact (if_pos hwindow).trans (by rw [hwindow]; rfl)
        · have hsome : windowRecords (count + 1) = [Record.window (chunkWindow (count + 1))] :=
            if_pos ⟨Nat.succ_pos count, Classical.not_not.mp (mt chunkWindow_succ.mpr hwindow)⟩
          rw [hsome]
          exact (if_neg hwindow).trans (by simp [encoded, chunkWindow])
  have hrecords : ((List.range (count + 1)).flatMap fun index =>
        windowRecords index ++ image.cellRecords stop index) =
      (image.encoded stop count).records.toList ++ windowRecords count ++
        image.cellRecords stop count := by
    rw [List.range_succ, List.flatMap_append, List.flatMap_singleton, ← List.append_assoc]
    rfl
  rw [henter, Encoding.add, encoded, hrecords, cellRecords]
  split
  · rw [List.append_nil]
    rfl
  · rw [← List.push_toArray]
    rfl

/-- The encoder's output, chunk by chunk. -/
theorem records_eq (image : Image) (length : Nat) :
    image.records length =
      ((List.range (chunkCount (min length image.capacity))).flatMap fun index =>
        windowRecords index ++ image.cellRecords (min length image.capacity) index) ++
      [Record.closing] := by
  have hloop : ∀ count, (List.range count).foldl
      (fun encoding index => (encoding.enter (chunkStart index)).add (chunkStart index)
        (image.chunkCells (min length image.capacity) index)) ({} : Encoding) =
      image.encoded (min length image.capacity) count := by
    intro count
    induction count with
    | zero => rfl
    | succ count ih => rw [List.range_succ, List.foldl_append, ih, encoded_succ]; rfl
  have hrecords : image.records length =
      (image.encoded (min length image.capacity)
        (chunkCount (min length image.capacity))).records.toList ++ [Record.closing] := by
    rw [← hloop]
    rfl
  rw [hrecords]
  rfl

/-- Every record of the encoder comes back when its line is read. -/
theorem wellFormed_of_mem_records {record : Record} {length : Nat}
    (h : record ∈ image.records length) : record.WellFormed := by
  rw [records_eq, List.mem_append, List.mem_flatMap] at h
  rcases h with ⟨index, -, hrecord⟩ | hclosing
  · rcases List.mem_append.mp hrecord with hwindow | hchunk
    · rw [windowRecords] at hwindow
      split at hwindow
      · obtain rfl := List.mem_singleton.mp hwindow
        exact ⟨by simp [Record.window], rfl, fun _ => length_bigEndian ..⟩
      · cases hwindow
    · rw [cellRecords] at hchunk
      split at hchunk
      · cases hchunk
      · obtain rfl := List.mem_singleton.mp hchunk
        refine ⟨Nat.le_trans length_chunkCells_le (by decide), rfl, ?_⟩
        intro haddress
        cases haddress
  · obtain rfl := List.mem_singleton.mp hclosing
    exact ⟨Nat.zero_le _, rfl, fun haddress => nomatch haddress⟩

/-! ## What the records write -/

/-- The writes of a chunk. -/
def chunkWrites (image : Image) (stop index : Nat) : List Write :=
  if (image.chunkCells stop index).all (· == IspStream.blank) then []
  else Write.consecutive (chunkStart index) (image.chunkCells stop index)

/-- The bases behind a chunk. -/
def chunkBases (index : Nat) : Bases := ⟨chunkWindow index * 2 ^ 16, 0⟩

theorem run_windowRecords (h : chunkStart index < 2 ^ 32) :
    (chunkBases (index - 1)).run (windowRecords index) = chunkBases index := by
  rw [windowRecords]
  split
  · have hvalue : ofBigEndian (bigEndian 2 (chunkWindow index)) = chunkWindow index := by
      rw [ofBigEndian_bigEndian]
      refine Nat.mod_eq_of_lt ?_
      simp only [chunkWindow]
      omega
    have hword : (UInt16.ofNat (chunkWindow index)).toNat = chunkWindow index := by
      rw [UInt16.toNat_ofNat']
      refine Nat.mod_eq_of_lt ?_
      simp only [chunkWindow]
      omega
    rw [bigEndian_two] at hvalue
    simp only [Bases.run, List.foldl_cons, List.foldl_nil, Bases.step, Record.window,
      Bases.setLinear, addressValue?, bigEndian_two, hvalue, Option.elim_some, hword]
    rfl
  · rename_i hsame
    cases index with
    | zero => rfl
    | succ index =>
        have hwindow : chunkWindow (index + 1) = chunkWindow index :=
          chunkWindow_succ.mpr fun hstart => hsame ⟨Nat.succ_pos index, hstart⟩
        rw [chunkBases, chunkBases, hwindow]
        rfl

theorem writesOf_windowRecords (bases : Bases) : writesOf bases (windowRecords index) = [] := by
  rw [windowRecords]
  split <;> rfl

theorem writesOf_cellRecords :
    writesOf (chunkBases index) (image.cellRecords stop index) = image.chunkWrites stop index := by
  rw [cellRecords, chunkWrites]
  split
  · rfl
  · have hlocate : (chunkBases index).locate
        (Record.chunk (chunkStart index) (image.chunkCells stop index)) = chunkStart index := by
      simp only [Bases.locate, chunkBases, Record.chunk, chunkWindow, UInt16.toNat_ofNat']
      omega
    rw [writesOf, writesOf, List.append_nil, writes]
    exact congrArg (Write.consecutive · _) hlocate

theorem run_cellRecords (bases : Bases) : bases.run (image.cellRecords stop index) = bases := by
  rw [cellRecords]
  split <;> rfl

/-- Decoding the encoder's output writes the chunks that are not blank, each at its
own position. -/
theorem writesOf_records {length : Nat} (h : min length image.capacity ≤ 2 ^ 32) :
    writesOf {} (image.records length) =
      (List.range (chunkCount (min length image.capacity))).flatMap
        (image.chunkWrites (min length image.capacity)) := by
  -- the induction also carries the bases, which those of the last chunk are
  have hchunks : ∀ count, (∀ index < count, chunkStart index < 2 ^ 32) →
      writesOf {} ((List.range count).flatMap fun index =>
          windowRecords index ++ image.cellRecords (min length image.capacity) index) =
        (List.range count).flatMap (image.chunkWrites (min length image.capacity)) ∧
      ({} : Bases).run ((List.range count).flatMap fun index =>
          windowRecords index ++ image.cellRecords (min length image.capacity) index) =
        chunkBases (count - 1) := by
    intro count hbound
    induction count with
    | zero => exact ⟨rfl, rfl⟩
    | succ count ih =>
        obtain ⟨hwrites, hbases⟩ := ih fun index hindex => hbound index (Nat.lt_succ_of_lt hindex)
        have hwindow := run_windowRecords (hbound count (Nat.lt_succ_self count))
        simp only [List.range_succ, List.flatMap_append, List.flatMap_singleton]
        refine ⟨?_, ?_⟩
        · rw [writesOf_append, hwrites, hbases, writesOf_append, writesOf_windowRecords, hwindow,
            writesOf_cellRecords, List.nil_append]
        · rw [Bases.run_append, hbases, Bases.run_append, hwindow, run_cellRecords]
          rfl
  rw [records_eq, writesOf_append]
  rw [(hchunks _ fun index hindex =>
    Nat.lt_of_lt_of_le (lt_chunkCount_iff.mp hindex) h).1]
  exact List.append_nil _

end IspStream.Image
