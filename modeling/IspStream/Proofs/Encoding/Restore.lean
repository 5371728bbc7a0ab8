import IspStream.Proofs.Encoding.Shape

/-!
# Decoding restores what was encoded

The hex text of an image, decoded into any other image, copies the chunks that are
not blank and touches nothing else (`decode_hexText`).  What the text writes is
known from the encoder's records, so three facts about a list of writes are left:
which cells it reaches (`mem_writesOfText_hexText`), which byte comes last for each
of them (`last?_writesOfText_hexText`), and where it ends (`stop_of_lastData`).
-/

namespace IspStream.Image

open Record

/-- The chunk of sixteen cells that holds an address has a cell below `stop` that
is not blank. -/
def ChunkHasData (image : Image) (stop address : Nat) : Prop :=
  ∃ other < stop, other / 16 = address / 16 ∧ image.get? other ≠ some IspStream.blank

instance (image : Image) (stop address : Nat) : Decidable (image.ChunkHasData stop address) :=
  inferInstanceAs (Decidable (∃ other < stop, _))

/-- The last cell below `stop` that is not blank. -/
structure LastData (image : Image) (stop address : Nat) : Prop where
  lt_stop : address < stop
  data : image.get? address ≠ some IspStream.blank
  blank_behind : ∀ other, address < other → other < stop → image.get? other = some IspStream.blank

variable {image : Image} {stop length : Nat}

/-! ## The text of the records -/

theorem length_data_le_of_mem_records {record : Record} (h : record ∈ image.records length) :
    record.data.length ≤ 255 :=
  (wellFormed_of_mem_records h).length_le

theorem ofLine_line {record : Record} (h : record.WellFormed) :
    ofLine record.line = .ok (some record) := by
  rw [ofLine, trimEnd_line, line]
  exact congrArg (Except.map some) h.parse_line

theorem ofLines_map_line {records : List Record} (h : ∀ record ∈ records, record.WellFormed) :
    ofLines (records.map line) = records := by
  induction records with
  | nil => rfl
  | cons record rest ih =>
      rw [List.map_cons, ofLines_cons, ofLine_line (h record List.mem_cons_self),
        ih fun other hother => h other (List.mem_cons_of_mem _ hother)]
      rfl

theorem lines_hexText (image : Image) (length : Nat) :
    Text.lines (image.hexText length).toList = (image.records length).map line :=
  lines_text fun _ => length_data_le_of_mem_records

theorem accepted_hexText (image : Image) (length : Nat) :
    Accepted (Text.lines (image.hexText length).toList) := by
  intro content hcontent
  rw [lines_hexText] at hcontent
  obtain ⟨record, hrecord, rfl⟩ := List.mem_map.mp hcontent
  exact ⟨some record, ofLine_line (wellFormed_of_mem_records hrecord)⟩

theorem writesOfText_hexText (h : min length image.capacity ≤ 2 ^ 32) :
    writesOfText (image.hexText length) =
      (List.range (chunkCount (min length image.capacity))).flatMap
        (image.chunkWrites (min length image.capacity)) := by
  rw [writesOfText, lines_hexText, ofLines_map_line fun _ => wellFormed_of_mem_records,
    writesOf_records h]

/-! ## The cells that are written -/

theorem get?_eq_some_of_lt {address : Nat} (h : address < image.capacity) :
    ∃ byte, image.get? address = some byte :=
  ⟨image.cells[address], Array.getElem?_eq_getElem h⟩

/-- A chunk is left out exactly if it has no data. -/
theorem all_chunkCells_iff {address : Nat} (hstop : stop ≤ image.capacity) :
    (image.chunkCells stop (address / 16)).all (· == IspStream.blank) = true ↔
      ¬image.ChunkHasData stop address := by
  rw [List.all_eq_true]
  constructor
  · -- a cell with data stands in the chunk at its address modulo sixteen
    rintro hblank ⟨other, hother, hchunk, hdata⟩
    obtain ⟨byte, hbyte⟩ := get?_eq_some_of_lt (Nat.lt_of_lt_of_le hother hstop)
    have hstart : chunkStart (address / 16) + other % 16 = other := by
      simp only [chunkStart, chunkSize]
      omega
    have hmem : (image.chunkCells stop (address / 16))[other % 16]? = some byte := by
      rw [getElem?_chunkCells, hstart, if_pos ⟨Nat.mod_lt _ (by decide), hother⟩, hbyte]
    have hcell := hblank byte (List.mem_of_getElem? hmem)
    exact hdata (by rw [hbyte, beq_iff_eq.mp hcell])
  · intro hnone byte hmem
    obtain ⟨place, hplace⟩ := List.mem_iff_getElem?.mp hmem
    rw [getElem?_chunkCells] at hplace
    split at hplace
    · rename_i hinside
      rw [beq_iff_eq]
      refine Classical.byContradiction fun hbyte => hnone ⟨_, hinside.2, ?_, ?_⟩
      · have hsmall := hinside.1
        simp only [chunkStart, chunkSize] at hsmall ⊢
        omega
      · rw [hplace]
        exact fun hsame => hbyte (Option.some.inj hsame)
    · cases hplace

theorem mem_chunkWrites {write : Write} {index : Nat} (hstop : stop ≤ image.capacity) :
    write ∈ image.chunkWrites stop index ↔
      write.address / 16 = index ∧ write.address < stop ∧
        image.ChunkHasData stop write.address ∧
        image.get? write.address = some write.byte := by
  rw [chunkWrites]
  constructor
  · intro hmem
    split at hmem
    · cases hmem
    · rename_i hdata
      obtain ⟨place, hbyte, haddress⟩ := Write.mem_consecutive.mp hmem
      rw [getElem?_chunkCells, ← haddress] at hbyte
      split at hbyte
      · rename_i hinside
        have hindex : write.address / 16 = index := by
          have hsmall := hinside.1
          simp only [chunkStart, chunkSize] at haddress hsmall
          omega
        subst hindex
        exact ⟨rfl, hinside.2, Classical.not_not.mp (mt (all_chunkCells_iff hstop).mpr hdata),
          hbyte⟩
      · cases hbyte
  · rintro ⟨rfl, hinside, hdata, hbyte⟩
    rw [if_neg fun hblank => (all_chunkCells_iff hstop).mp hblank hdata]
    have haddress : write.address = chunkStart (write.address / 16) + write.address % 16 := by
      simp only [chunkStart, chunkSize]
      omega
    refine Write.mem_consecutive.mpr ⟨write.address % 16, ?_, haddress⟩
    rw [getElem?_chunkCells, ← haddress, if_pos ⟨Nat.mod_lt _ (by decide), hinside⟩, hbyte]

/-- The hex text of an image writes the cells of the chunks with data. -/
theorem mem_writesOfText_hexText {write : Write} (h : min length image.capacity ≤ 2 ^ 32) :
    write ∈ writesOfText (image.hexText length) ↔
      write.address < min length image.capacity ∧
        image.ChunkHasData (min length image.capacity) write.address ∧
        image.get? write.address = some write.byte := by
  rw [writesOfText_hexText h, List.mem_flatMap]
  simp only [mem_chunkWrites (Nat.min_le_right ..), List.mem_range, lt_chunkCount_iff]
  constructor
  · rintro ⟨index, -, -, hwrite⟩
    exact hwrite
  · rintro ⟨hinside, hwrite⟩
    refine ⟨write.address / 16, ?_, rfl, hinside, hwrite⟩
    simp only [chunkStart, chunkSize]
    omega

theorem last?_writesOfText_hexText (h : min length image.capacity ≤ 2 ^ 32) (address : Nat) :
    Write.last? (writesOfText (image.hexText length)) address =
      if address < min length image.capacity ∧
          image.ChunkHasData (min length image.capacity) address then
        image.get? address
      else none := by
  split
  · rename_i hkept
    refine Write.last?_of_forall (fun write hmem => ((mem_writesOfText_hexText h).mp hmem).2.2) ?_
    obtain ⟨byte, hbyte⟩ := get?_eq_some_of_lt (show address < image.capacity by omega)
    exact ⟨⟨address, byte⟩, (mem_writesOfText_hexText h).mpr ⟨hkept.1, hkept.2, hbyte⟩, rfl⟩
  · rename_i hskipped
    rw [Write.last?_eq_none_iff]
    rintro write hmem rfl
    obtain ⟨hinside, hdata, -⟩ := (mem_writesOfText_hexText h).mp hmem
    exact hskipped ⟨hinside, hdata⟩

/-! ## The end of the writes -/

theorem stop_of_blank (h : min length image.capacity ≤ 2 ^ 32)
    (hblank : ∀ address < min length image.capacity, image.get? address = some IspStream.blank) :
    Write.stop (writesOfText (image.hexText length)) = 0 := by
  have hnone : writesOfText (image.hexText length) = [] := by
    refine List.eq_nil_iff_forall_not_mem.mpr fun write hmem => ?_
    obtain ⟨-, ⟨other, hother, -, hdata⟩, -⟩ := (mem_writesOfText_hexText h).mp hmem
    exact hdata (hblank other hother)
  rw [hnone]
  rfl

theorem stop_of_lastData {address : Nat} (h : min length image.capacity ≤ 2 ^ 32)
    (hlast : image.LastData (min length image.capacity) address) :
    Write.stop (writesOfText (image.hexText length)) =
      min (16 * (address / 16) + 16) (min length image.capacity) := by
  obtain ⟨hinside, hdata, hbehind⟩ := hlast
  refine Nat.le_antisymm (Write.stop_le fun write hmem => ?_) ?_
  · -- no chunk behind that of the last data is written
    obtain ⟨hwrite, ⟨other, hother, hchunk, hbyte⟩, -⟩ := (mem_writesOfText_hexText h).mp hmem
    have hbefore : other ≤ address :=
      Nat.le_of_not_lt fun hlt => hbyte (hbehind other hlt hother)
    omega
  · -- the last cell of the last chunk with data is written
    generalize hend : min (16 * (address / 16) + 16) (min length image.capacity) = final
    have hfinal : final - 1 < min length image.capacity := by omega
    obtain ⟨byte, hbyte⟩ := get?_eq_some_of_lt (show final - 1 < image.capacity by omega)
    have hmem : ⟨final - 1, byte⟩ ∈ writesOfText (image.hexText length) :=
      (mem_writesOfText_hexText h).mpr
        ⟨hfinal, ⟨address, hinside, by simp only; omega, hdata⟩, hbyte⟩
    have := Write.lt_stop hmem
    simp only at this
    omega

/-! ## The round trip -/

/-- What decoding the hex text of `source`, cut off at `stop`, makes of `destination`
when shifted up by `offset`. -/
structure Restored (source : Image) (stop : Nat) (destination : Image) (offset : Nat)
    (outcome : Outcome) : Prop where
  succeeds : ∃ final, outcome.result = .ok final
  final_of_blank : (∀ address < stop, source.get? address = some IspStream.blank) →
    outcome.result = .ok 0
  final_of_lastData : ∀ address, source.LastData stop address →
    outcome.result = .ok (min (16 * (address / 16) + 16) stop)
  capacity_eq : outcome.image.capacity = destination.capacity
  written : ∀ address < stop, source.ChunkHasData stop address →
    outcome.image.get? (offset + address) = source.get? address
  skipped : ∀ address < stop, ¬source.ChunkHasData stop address →
    outcome.image.get? (offset + address) = destination.get? (offset + address)
  outside : ∀ cell, cell < offset ∨ offset + stop ≤ cell →
    outcome.image.get? cell = destination.get? cell

theorem decode_hexText_eq {source destination : Image} {offset : Nat}
    (hspace : min length source.capacity ≤ 2 ^ 32)
    (hroom : offset + min length source.capacity ≤ destination.capacity) :
    destination.decode (source.hexText length) offset =
      ⟨destination.apply offset (writesOfText (source.hexText length)),
        reportsOf 1 (Text.lines (source.hexText length).toList),
        .ok (Write.stop (writesOfText (source.hexText length)))⟩ := by
  refine decode_of_fits (accepted_hexText source length) fun write hmem => ?_
  have := ((mem_writesOfText_hexText hspace).mp hmem).1
  omega

theorem restored_decode_hexText {source destination : Image} {offset : Nat}
    (hspace : min length source.capacity ≤ 2 ^ 32)
    (hroom : offset + min length source.capacity ≤ destination.capacity) :
    Restored source (min length source.capacity) destination offset
      (destination.decode (source.hexText length) offset) := by
  rw [decode_hexText_eq hspace hroom]
  have hcell : ∀ address < min length source.capacity,
      (destination.apply offset (writesOfText (source.hexText length))).get? (offset + address) =
        if source.ChunkHasData (min length source.capacity) address then source.get? address
        else destination.get? (offset + address) := by
    intro address hinside
    rw [get?_apply, if_pos ⟨Nat.le_add_right .., by omega⟩, Nat.add_sub_cancel_left,
      last?_writesOfText_hexText hspace]
    by_cases hdata : source.ChunkHasData (min length source.capacity) address
    · obtain ⟨byte, hbyte⟩ := get?_eq_some_of_lt (show address < source.capacity by omega)
      rw [if_pos ⟨hinside, hdata⟩, if_pos hdata, hbyte]
      rfl
    · rw [if_neg fun h => hdata h.2, if_neg hdata]
      rfl
  refine ⟨⟨_, rfl⟩, ?_, ?_, capacity_apply .., ?_, ?_, ?_⟩
  · intro hblank
    simp only [stop_of_blank hspace hblank]
  · intro address hlast
    simp only [stop_of_lastData hspace hlast]
  · intro address hinside hdata
    simp only [hcell address hinside, if_pos hdata]
  · intro address hinside hdata
    simp only [hcell address hinside, if_neg hdata]
  · intro cell houtside
    rw [get?_apply]
    split
    · rw [last?_writesOfText_hexText hspace, if_neg (by omega)]
      rfl
    · rfl

theorem restored_blank {source : Image} (hspace : length ≤ 2 ^ 32)
    (hlength : length ≤ source.capacity) :
    Restored source length (blank source.capacity) 0
      ((blank source.capacity).decode (source.hexText length) 0) := by
  have hmin : min length source.capacity = length := Nat.min_eq_left hlength
  have hroom : 0 + min length source.capacity ≤ (blank source.capacity).capacity := by
    rw [capacity_blank]
    omega
  have hrestored := restored_decode_hexText (hmin.symm ▸ hspace) hroom
  rwa [hmin] at hrestored

/-- Decoding the hex text of a part of an image into a blank one gives the part back. -/
theorem get?_decode_hexText_blank {source : Image} {cell : Nat} (hspace : length ≤ 2 ^ 32)
    (hlength : length ≤ source.capacity) (hcell : cell < source.capacity) :
    ((blank source.capacity).decode (source.hexText length) 0).image.get? cell =
      if cell < length then source.get? cell else some IspStream.blank := by
  have hback := restored_blank hspace hlength
  have hblank : (blank source.capacity).get? cell = some IspStream.blank := by
    rw [get?_blank, if_pos hcell]
  split
  · rename_i hinside
    by_cases hdata : source.ChunkHasData length cell
    · rw [← hback.written cell hinside hdata, Nat.zero_add]
    · have hskipped := hback.skipped cell hinside hdata
      rw [Nat.zero_add, hblank] at hskipped
      rw [hskipped]
      exact Classical.byContradiction fun hbyte => hdata ⟨cell, hinside, rfl, Ne.symm hbyte⟩
  · rename_i hbehind
    rw [hback.outside cell (Or.inr (by omega)), hblank]

/-- An image and its hex text: decoding the text into any image with enough room
copies the chunks with data and leaves the other cells alone.  In a blank image of
the same capacity this restores every cell that was encoded. -/
theorem decode_hexText (source destination : Image) (length offset : Nat)
    (hspace : min length source.capacity ≤ 2 ^ 32)
    (hroom : offset + min length source.capacity ≤ destination.capacity) :
    Restored source (min length source.capacity) destination offset
        (destination.decode (source.hexText length) offset) ∧
      (∃ final, ((blank source.capacity).decode (source.hexText length) 0).result = .ok final) ∧
      ∀ address < min length source.capacity,
        ((blank source.capacity).decode (source.hexText length) 0).image.get? address =
          source.get? address := by
  have hback : Restored source (min length source.capacity) (blank source.capacity) 0
      ((blank source.capacity).decode (source.hexText length) 0) :=
    restored_decode_hexText hspace (by rw [capacity_blank]; omega)
  refine ⟨restored_decode_hexText hspace hroom, hback.succeeds, fun address hinside => ?_⟩
  rw [← Nat.zero_add address]
  by_cases hdata : source.ChunkHasData (min length source.capacity) address
  · rw [hback.written address hinside hdata, Nat.zero_add]
  · have hblank : source.get? address = some IspStream.blank :=
      Classical.byContradiction fun hbyte => hdata ⟨address, hinside, rfl, hbyte⟩
    rw [hback.skipped address hinside hdata, Nat.zero_add, hblank, get?_blank,
      if_pos (by omega)]

/-- A blank chunk and a part of a chunk, over an image with content. -/
theorem decode_hexText_seventeen :
    min 100 (Image.capacity ⟨Array.replicate 16 0xFF ++ #[0x12]⟩) ≤ 2 ^ 32 ∧
      2 + min 100 (Image.capacity ⟨Array.replicate 16 0xFF ++ #[0x12]⟩) ≤
        Image.capacity ⟨Array.replicate 20 0x55⟩ ∧
      Restored ⟨Array.replicate 16 0xFF ++ #[0x12]⟩ 17 ⟨Array.replicate 20 0x55⟩ 2
        (decode ⟨Array.replicate 20 0x55⟩ (hexText ⟨Array.replicate 16 0xFF ++ #[0x12]⟩ 100) 2) :=
  ⟨by decide, by decide,
    (decode_hexText ⟨Array.replicate 16 0xFF ++ #[0x12]⟩ ⟨Array.replicate 20 0x55⟩ 100 2
      (by decide) (by decide)).1⟩

end IspStream.Image
