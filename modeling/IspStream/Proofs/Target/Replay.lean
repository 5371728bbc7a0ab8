import IspStream.Image.Basic
import Mathlib.Algebra.Group.Int.Defs
import Mathlib.Algebra.Group.Nat.Defs
import Mathlib.Data.List.Forall2
import Mathlib.Logic.Function.Basic

/-!
# Programming the target device

The programmer carries out a programming instruction as a transfer: the bytes of
its payload go to consecutive addresses of a memory with 2^32 cells, whose end is
followed by its beginning.  `replay` is what such a memory holds after a list of
transfers if it was erased before.

Where a file is to start may be any integer, so cells are counted from there:
`place start index` is the address of cell `index`.  As long as there are no more
than 2^32 cells, different ones have different addresses (`place_inj`), and
`replay_place` can tell what becomes of each cell without a word about wrapping.
-/

namespace IspStream

/-- One programming instruction, taken apart into its operands. -/
structure Transfer where
  /-- The opcode. -/
  opcode : UInt8
  /-- The address of the first byte. -/
  address : UInt32
  /-- The length field. -/
  length : UInt32
  /-- The page size. -/
  pageSize : UInt16
  /-- The bytes to program. -/
  payload : List UInt8
deriving DecidableEq, Repr

namespace Transfer

/-- The bytes of the instruction. -/
def bytes (transfer : Transfer) : List UInt8 :=
  [transfer.opcode] ++ bigEndian 4 transfer.address.toNat ++ bigEndian 4 transfer.length.toNat ++
    bigEndian 2 transfer.pageSize.toNat ++ transfer.payload

/-- The memory after bytes for consecutive addresses. -/
def program : (UInt32 → UInt8) → UInt32 → List UInt8 → UInt32 → UInt8
  | memory, _, [] => memory
  | memory, address, byte :: rest =>
    program (Function.update memory address byte) (address + 1) rest

/-- The memory after transfers. -/
def programAll (memory : UInt32 → UInt8) (transfers : List Transfer) : UInt32 → UInt8 :=
  transfers.foldl (fun current transfer => program current transfer.address transfer.payload) memory

/-- An erased memory after transfers. -/
def replay (transfers : List Transfer) : UInt32 → UInt8 := programAll (fun _ => blank) transfers

/-! ## Places -/

/-- The address of a cell, counted from a start address. -/
def place (start : Int) (index : Nat) : UInt32 := UInt32.ofInt (start + index)

theorem place_succ (start : Int) (index : Nat) : place start (index + 1) = place start index + 1 := by
  rw [place, place, Int.natCast_add, ← Int.add_assoc, UInt32.ofInt_add]
  rfl

theorem toNat_place (start : Int) (index : Nat) :
    (place start index).toNat = ((start + index) % 2 ^ 32).toNat := by
  rw [place, UInt32.ofInt, UInt32.toNat_ofNat', Nat.mod_eq_of_lt (by omega)]

theorem place_inj {start : Int} {one other : Nat} (hone : one < 2 ^ 32) (hother : other < 2 ^ 32) :
    place start one = place start other ↔ one = other := by
  rw [← UInt32.toNat_inj, toNat_place, toNat_place]
  omega

/-- Every address is that of a cell. -/
theorem exists_place (start : Int) (address : UInt32) :
    ∃ index < 2 ^ 32, address = place start index := by
  have haddress := address.toNat_lt
  refine ⟨((address.toNat - start) % 2 ^ 32).toNat, by omega, ?_⟩
  rw [← UInt32.toNat_inj, toNat_place]
  omega

/-! ## The cells after programming -/

variable {start : Int} {index : Nat}

theorem program_place {first : Nat} {payload : List UInt8} (memory : UInt32 → UInt8)
    (hlast : first + payload.length ≤ 2 ^ 32) (hindex : index < 2 ^ 32) :
    some (program memory (place start first) payload (place start index)) =
      if first ≤ index ∧ index < first + payload.length then payload[index - first]?
      else some (memory (place start index)) := by
  induction payload generalizing memory first with
  | nil =>
      rw [if_neg fun h => by simp only [List.length_nil] at h; omega]
      rfl
  | cons byte rest ih =>
      rw [List.length_cons] at hlast ⊢
      rw [program, ← place_succ, ih _ (by omega)]
      -- the first byte goes to `first`, and no later one comes back to that place
      by_cases hsame : index = first
      · subst hsame
        rw [if_neg (by omega), if_pos (by omega), Function.update_self, Nat.sub_self]
        rfl
      · have hother : place start index ≠ place start first :=
          fun h => hsame ((place_inj hindex (by omega)).mp h)
        rw [Function.update_of_ne hother]
        by_cases hinside : first + 1 ≤ index ∧ index < first + 1 + rest.length
        · rw [if_pos hinside, if_pos (by omega),
            show index - first = index - (first + 1) + 1 by omega, List.getElem?_cons_succ]
        · rw [if_neg hinside, if_neg (by omega)]

/-! ## Transfers for blocks -/

/-- A transfer that carries a block of an image to where it belongs. -/
structure Carries (code : UInt8) (start pageSize : Int) (image : Image) (block : Block)
    (transfer : Transfer) : Prop where
  opcode_eq : transfer.opcode = code
  address_eq : transfer.address = place start block.first
  length_eq : transfer.length.toNat = transfer.payload.length
  length_pos : 1 ≤ transfer.payload.length
  pageSize_eq : transfer.pageSize = UInt16.ofInt pageSize
  payload_eq : transfer.payload = image.slice block.first (block.last + 1)
  head_data : transfer.payload.head? ≠ some blank
  last_data : transfer.payload.getLast? ≠ some blank

variable {code : UInt8} {pageSize : Int} {image : Image}

theorem program_of_carries {block : Block} {transfer : Transfer} (memory : UInt32 → UInt8)
    (h : Carries code start pageSize image block transfer) (hcapacity : image.capacity ≤ 2 ^ 32)
    (hfirst : block.first ≤ block.last) (hlast : block.last < image.capacity)
    (hindex : index < 2 ^ 32) :
    some (program memory transfer.address transfer.payload (place start index)) =
      if index ∈ block then image.get? index else some (memory (place start index)) := by
  have hlength : block.first + transfer.payload.length = block.last + 1 := by
    rw [h.payload_eq, Image.length_slice]
    omega
  rw [h.address_eq, program_place memory (by omega) hindex, hlength, h.payload_eq]
  by_cases hmem : block.first ≤ index ∧ index ≤ block.last
  · rw [if_pos ⟨hmem.1, by omega⟩, if_pos (show index ∈ block from hmem), Image.getElem?_slice,
      Nat.add_sub_cancel' hmem.1, if_pos (by omega)]
  · rw [if_neg fun hinside => hmem ⟨hinside.1, by omega⟩, if_neg (show ¬index ∈ block from hmem)]

/-- A cell holds its byte of the image if it lies in one of the blocks, and is left
alone otherwise. -/
theorem programAll_place {blocks : List Block} {transfers : List Transfer}
    (memory : UInt32 → UInt8)
    (h : List.Forall₂ (Carries code start pageSize image) blocks transfers)
    (hcapacity : image.capacity ≤ 2 ^ 32)
    (hinside : ∀ block ∈ blocks, block.first ≤ block.last ∧ block.last < image.capacity)
    (hindex : index < 2 ^ 32) :
    some (programAll memory transfers (place start index)) =
      if ∃ block ∈ blocks, index ∈ block then image.get? index
      else some (memory (place start index)) := by
  induction h generalizing memory with
  | nil => simp [programAll]
  | @cons block transfer moreBlocks moreTransfers hcarries _ ih =>
      have hhere := program_of_carries memory hcarries hcapacity
        (hinside block List.mem_cons_self).1 (hinside block List.mem_cons_self).2 hindex
      have hrest := ih (program memory transfer.address transfer.payload)
        fun other hother => hinside other (List.mem_cons_of_mem _ hother)
      rw [programAll, List.foldl_cons, ← programAll, hrest, hhere]
      -- a later transfer may overwrite the cell, but only with the same byte
      by_cases hmem : ∃ other ∈ moreBlocks, index ∈ other
      · obtain ⟨other, hother, hindexMem⟩ := hmem
        rw [if_pos ⟨other, hother, hindexMem⟩,
          if_pos ⟨other, List.mem_cons_of_mem _ hother, hindexMem⟩]
      · rw [if_neg hmem]
        by_cases hfirst : index ∈ block
        · rw [if_pos hfirst, if_pos ⟨block, List.mem_cons_self, hfirst⟩]
        · rw [if_neg hfirst, if_neg]
          rintro ⟨other, hother, hindexMem⟩
          rcases List.mem_cons.mp hother with rfl | hmore
          · exact hfirst hindexMem
          · exact hmem ⟨other, hmore, hindexMem⟩

/-! ## The content of an image -/

/-- An erased memory holds an image, and nothing else, after transfers. -/
structure Reproduces (start : Int) (image : Image) (transfers : List Transfer) : Prop where
  inside : ∀ index < image.capacity, image.get? index = some (replay transfers (place start index))
  outside : ∀ address, (∀ index < image.capacity, address ≠ place start index) →
    replay transfers address = blank

/-- It is enough that the transfers carry blocks which together hold all data. -/
theorem reproduces_of_carries {blocks : List Block} {transfers : List Transfer}
    (h : List.Forall₂ (Carries code start pageSize image) blocks transfers)
    (hcapacity : image.capacity ≤ 2 ^ 32)
    (hinside : ∀ block ∈ blocks, block.first ≤ block.last ∧ block.last < image.capacity)
    (hcovers : ∀ index < image.capacity, image.get? index ≠ some blank →
      ∃ block ∈ blocks, index ∈ block) :
    Reproduces start image transfers := by
  constructor
  · intro index hindex
    rw [replay, programAll_place _ h hcapacity hinside (by omega)]
    by_cases hmem : ∃ block ∈ blocks, index ∈ block
    · rw [if_pos hmem]
    · rw [if_neg hmem]
      exact Classical.byContradiction fun hdata => hmem (hcovers index hindex hdata)
  · intro address houtside
    obtain ⟨index, hindex, rfl⟩ := exists_place start address
    have hbehind : image.capacity ≤ index :=
      Nat.le_of_not_lt fun hlt => houtside index hlt rfl
    have hcell := programAll_place (fun _ => blank) h hcapacity hinside hindex
    rw [if_neg] at hcell
    · exact Option.some.inj hcell
    · rintro ⟨block, hblock, hmem⟩
      have hlast := (hinside block hblock).2
      have hindexLast : index ≤ block.last := hmem.2
      omega

end Transfer

end IspStream
