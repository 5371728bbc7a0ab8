import IspStream.Block
import IspStream.Bytes

/-!
# Memory images

A memory image is a flat array of cells of fixed capacity.  Its one view is
`Image.get?`, the cell at an address; a cell beyond the capacity does not exist,
and no operation changes the capacity.
-/

namespace IspStream

/-- A memory image. -/
structure Image where
  /-- The cells, from address zero upwards. -/
  cells : Array UInt8
deriving DecidableEq, Repr

namespace Image

/-- An image of unprogrammed cells. -/
def blank (capacity : Nat) : Image := ⟨Array.replicate capacity IspStream.blank⟩

/-- The number of cells. -/
def capacity (image : Image) : Nat := image.cells.size

/-- The cell at an address. -/
def get? (image : Image) (address : Nat) : Option UInt8 := image.cells[address]?

/-- The cells from `first` up to, but not including, `stop`, as far as they exist. -/
def slice (image : Image) (first stop : Nat) : List UInt8 :=
  (image.cells.extract first stop).toList

/-- Writes one cell, if it exists. -/
def set (image : Image) (address : Nat) (byte : UInt8) : Image :=
  ⟨image.cells.setIfInBounds address byte⟩

/-- Writes bytes to consecutive addresses up to the first one outside the image,
which is the second part of the answer. -/
def store : Image → Nat → List UInt8 → Image × Option Nat
  | image, _, [] => (image, none)
  | image, address, byte :: bytes =>
    if address < image.capacity then store (image.set address byte) (address + 1) bytes
    else (image, some address)

/-- The blocks of the first `length` cells. -/
def blocks (image : Image) (length bound : Nat) : List Block :=
  Block.blocks bound (image.slice 0 length)

/-- The cells of a block. -/
def payload (image : Image) (block : Block) : List UInt8 :=
  image.slice block.first (block.last + 1)

/-! ## The view of each operation -/

@[simp] theorem capacity_blank (capacity : Nat) : (blank capacity).capacity = capacity := by
  simp [blank, Image.capacity]

@[simp] theorem capacity_set (image : Image) (address : Nat) (byte : UInt8) :
    (image.set address byte).capacity = image.capacity := by
  simp [set, capacity]

theorem get?_blank (capacity address : Nat) :
    (blank capacity).get? address = if address < capacity then some IspStream.blank else none := by
  simp [blank, get?, Array.getElem?_replicate]

theorem get?_eq_none_iff {image : Image} {address : Nat} :
    image.get? address = none ↔ image.capacity ≤ address := by
  simp [get?, capacity]

@[simp] theorem length_slice (image : Image) (first stop : Nat) :
    (image.slice first stop).length = min stop image.capacity - first := by
  rw [slice, Array.length_toList, Array.size_extract]
  rfl

theorem getElem?_slice (image : Image) (first stop index : Nat) :
    (image.slice first stop)[index]? =
      if first + index < stop then image.get? (first + index) else none := by
  by_cases hinside : first + index < min stop image.capacity
  · rw [slice, Array.getElem?_toList, Array.getElem?_extract,
      if_pos (Nat.lt_sub_of_add_lt (by rw [Nat.add_comm]; exact hinside)), if_pos (by omega)]
    rfl
  · rw [List.getElem?_eq_none (by rw [length_slice]; omega)]
    split
    · exact (get?_eq_none_iff.mpr (by omega)).symm
    · rfl

theorem get?_set (image : Image) (address other : Nat) (byte : UInt8) :
    (image.set address byte).get? other =
      if address = other then if address < image.capacity then some byte else none
      else image.get? other :=
  Array.getElem?_setIfInBounds

@[simp] theorem capacity_store (image : Image) (address : Nat) (bytes : List UInt8) :
    (image.store address bytes).1.capacity = image.capacity := by
  induction bytes generalizing image address with
  | nil => rfl
  | cons byte rest ih =>
      unfold store
      split
      · rw [ih, capacity_set]
      · rfl

/-- A cell holds the byte that was stored for it, or what it held before. -/
theorem get?_store (image : Image) (address other : Nat) (bytes : List UInt8) :
    (image.store address bytes).1.get? other =
      if address ≤ other ∧ other < address + bytes.length ∧ other < image.capacity then
        bytes[other - address]?
      else image.get? other := by
  induction bytes generalizing image address with
  | nil =>
      rw [if_neg fun h => by simp only [List.length_nil] at h; omega]
      rfl
  | cons byte rest ih =>
      unfold store
      split
      · rename_i hroom
        rw [ih, capacity_set, get?_set, List.length_cons]
        by_cases hsame : address = other
        · subst hsame
          rw [if_neg (by omega), if_pos rfl, if_pos hroom, if_pos (by omega), Nat.sub_self]
          rfl
        · by_cases hlater : address < other
          · have hshift : other - address = other - (address + 1) + 1 := by omega
            rw [hshift, List.getElem?_cons_succ, if_neg hsame]
            congr 1
            exact propext (by omega)
          · rw [if_neg (by omega), if_neg hsame, if_neg (by omega)]
      · rw [if_neg (by omega)]

/-- Storing stops at the first address outside the image. -/
theorem snd_store (image : Image) (address : Nat) (bytes : List UInt8) :
    (image.store address bytes).2 =
      if bytes = [] ∨ address + bytes.length ≤ image.capacity then none
      else some (max address image.capacity) := by
  induction bytes generalizing image address with
  | nil => simp [store]
  | cons byte rest ih =>
      unfold store
      split
      · rename_i hroom
        rw [ih, capacity_set, List.length_cons]
        cases rest with
        | nil => rw [if_pos (.inl rfl), if_pos (.inr (Nat.succ_le_of_lt hroom))]
        | cons next more =>
            simp only [reduceCtorEq, false_or, show address + (List.length (next :: more) + 1) =
              address + 1 + List.length (next :: more) by omega,
              show max (address + 1) image.capacity = max address image.capacity by omega]
      · rename_i hroom
        rw [if_neg (by simp only [reduceCtorEq, List.length_cons, false_or]; omega),
          Nat.max_eq_left (by omega)]

end Image

end IspStream
