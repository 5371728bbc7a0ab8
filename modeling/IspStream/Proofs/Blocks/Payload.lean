import IspStream.Proofs.Blocks.Scan
import IspStream.Proofs.Decoding.AddressMap

/-!
# The blocks of an image

Splitting works on a list of cells, and an image is looked at through its addresses.
This file says what is known of a block of an image in terms of addresses: it lies
inside the image, its first and its last cell are not blank, and its payload is as
long as the block.

It also says where splitting may stop: behind all data, as decoding does (`blankFrom_decode`),
it does not matter where (`BlankFrom.blocks_eq`).
-/

namespace IspStream.Image

variable {image : Image} {stop bound index : Nat} {block : Block}

theorem isData_slice_iff :
    Block.IsData (image.slice 0 stop) index ↔
      index < stop ∧ ∃ byte, image.get? index = some byte ∧ byte ≠ IspStream.blank := by
  rw [Block.IsData, getElem?_slice, Nat.zero_add]
  by_cases hindex : index < stop
  · simp [hindex]
  · simp [hindex]

theorem complete_of_mem_blocks (h : block ∈ image.blocks stop bound) :
    Block.Complete bound (image.slice 0 stop) block :=
  (Block.partition_blocks bound (image.slice 0 stop)).complete block h

/-- A block lies inside the image. -/
theorem inside_of_mem_blocks (h : block ∈ image.blocks stop bound) :
    block.first ≤ block.last ∧ block.last < image.capacity := by
  have hcomplete := complete_of_mem_blocks h
  have hlast := hcomplete.last_data.lt_length
  rw [length_slice] at hlast
  exact ⟨hcomplete.first_le_last, by omega⟩

theorem first_ne_blank_of_mem_blocks (h : block ∈ image.blocks stop bound) :
    image.get? block.first ≠ some IspStream.blank := by
  obtain ⟨-, byte, hbyte, hdata⟩ := isData_slice_iff.mp (complete_of_mem_blocks h).first_data
  rw [hbyte]
  exact fun heq => hdata (Option.some.inj heq)

theorem last_ne_blank_of_mem_blocks (h : block ∈ image.blocks stop bound) :
    image.get? block.last ≠ some IspStream.blank := by
  obtain ⟨-, byte, hbyte, hdata⟩ := isData_slice_iff.mp (complete_of_mem_blocks h).last_data
  rw [hbyte]
  exact fun heq => hdata (Option.some.inj heq)

/-- The payload of a block is as long as the block. -/
theorem length_payload (h : block ∈ image.blocks stop bound) :
    (image.payload block).length = block.length := by
  obtain ⟨hends, hinside⟩ := inside_of_mem_blocks h
  rw [payload, length_slice, Block.length]
  omega

theorem getElem?_payload :
    (image.payload block)[index]? =
      if block.first + index ≤ block.last then image.get? (block.first + index) else none := by
  rw [payload, getElem?_slice]
  congr 1
  exact propext Nat.lt_succ_iff

/-- Data below `stop` lies in a block. -/
theorem exists_mem_blocks (bound : Nat) (hstop : index < stop) (hinside : index < image.capacity)
    (hdata : image.get? index ≠ some IspStream.blank) :
    ∃ block ∈ image.blocks stop bound, index ∈ block := by
  cases hbyte : image.get? index with
  | none => exact absurd (get?_eq_none_iff.mp hbyte) (Nat.not_le_of_lt hinside)
  | some byte =>
      refine (Block.partition_blocks bound (image.slice 0 stop)).covers index ?_
      exact isData_slice_iff.mpr ⟨hstop, byte, hbyte, fun heq => hdata (by rw [hbyte, heq])⟩

/-- A blank image has no blocks. -/
theorem blocks_eq_nil_of_blank
    (h : ∀ index < image.capacity, image.get? index = some IspStream.blank) :
    image.blocks stop bound = [] := by
  refine List.eq_nil_iff_forall_not_mem.mpr fun block hblock => ?_
  exact last_ne_blank_of_mem_blocks hblock (h block.last (inside_of_mem_blocks hblock).2)

/-! ## Where splitting stops -/

/-- No data lies at an address or behind it. -/
def BlankFrom (image : Image) (stop : Nat) : Prop :=
  ∀ cell, stop ≤ cell → cell < image.capacity → image.get? cell = some IspStream.blank

theorem blankFrom_capacity (image : Image) : image.BlankFrom image.capacity :=
  fun _ hbehind hinside => absurd hinside (Nat.not_lt.mpr hbehind)

/-- Behind the end that decoding into a blank image reports there is no data. -/
theorem blankFrom_decode {capacity : Nat} {text : String}
    (h : ((blank capacity).decode text 0).result = .ok stop) :
    ((blank capacity).decode text 0).image.BlankFrom stop := by
  intro cell hcell hinside
  rw [capacity_decode_of_ok h, capacity_blank] at hinside
  rw [get?_decode_of_le h (by rwa [Nat.zero_add]), get?_blank, if_pos hinside]

/-- In front of blank cells lies all the data that there is. -/
theorem BlankFrom.isData_iff (h : image.BlankFrom stop) :
    Block.IsData (image.slice 0 stop) index ↔
      ∃ byte, image.get? index = some byte ∧ byte ≠ IspStream.blank := by
  rw [isData_slice_iff]
  refine and_iff_right_of_imp ?_
  rintro ⟨byte, hbyte, hdata⟩
  have hinside : index < image.capacity := by
    by_contra houtside
    rw [get?_eq_none_iff.mpr (Nat.le_of_not_lt houtside)] at hbyte
    cases hbyte
  by_contra hbehind
  rw [h index (Nat.le_of_not_lt hbehind) hinside] at hbyte
  exact hdata (Option.some.inj hbyte).symm

/-- Blank cells at the end make no difference to splitting. -/
theorem BlankFrom.blocks_eq {other : Nat} (hstop : image.BlankFrom stop)
    (hother : image.BlankFrom other) (bound : Nat) :
    image.blocks stop bound = image.blocks other bound :=
  Block.blocks_congr bound fun _ => hstop.isData_iff.trans hother.isData_iff.symm

end IspStream.Image
