import IspStream.Image.Basic

/-!
# Writes

Decoding turns text into writes: bytes for relative addresses, in the order in
which they happen.  Several writes may be for one address, and then the last one
counts.  This file is about such lists by themselves: which byte stays at an
address (`Write.last?`), where the written addresses end (`Write.stop`), and what
an image looks like after all of them (`Image.apply`).

A write for a cell that does not exist changes nothing.  So `Image.apply` also
describes what is left of a record that runs into the end of the image
(`store_eq_apply`).
-/

namespace IspStream

/-- A byte for a relative address. -/
structure Write where
  /-- The relative address. -/
  address : Nat
  /-- The byte. -/
  byte : UInt8
deriving DecidableEq, Repr

namespace Write

/-- The writes of bytes for consecutive addresses. -/
def consecutive : Nat → List UInt8 → List Write
  | _, [] => []
  | address, byte :: bytes => ⟨address, byte⟩ :: consecutive (address + 1) bytes

/-- The last byte that is written for an address. -/
def last? : List Write → Nat → Option UInt8
  | [], _ => none
  | write :: rest, address =>
    (last? rest address).or (if write.address = address then some write.byte else none)

/-- One past the highest address that is written, or zero if there is none. -/
def stop : List Write → Nat
  | [] => 0
  | write :: rest => max (write.address + 1) (stop rest)

variable {writes : List Write} {address : Nat}

/-! ## Consecutive writes -/

theorem mem_consecutive {write : Write} {data : List UInt8} :
    write ∈ consecutive address data ↔
      ∃ index, data[index]? = some write.byte ∧ write.address = address + index := by
  induction data generalizing address with
  | nil => simp [consecutive]
  | cons byte rest ih =>
      rw [consecutive, List.mem_cons, ih]
      constructor
      · rintro (rfl | ⟨index, hbyte, haddress⟩)
        · exact ⟨0, rfl, rfl⟩
        · exact ⟨index + 1, hbyte, by omega⟩
      · rintro ⟨index | index, hbyte, haddress⟩
        · left
          cases write
          simp_all
        · exact Or.inr ⟨index, hbyte, by omega⟩

theorem consecutive_append (address : Nat) (first second : List UInt8) :
    consecutive address (first ++ second) =
      consecutive address first ++ consecutive (address + first.length) second := by
  induction first generalizing address with
  | nil => rfl
  | cons byte rest ih =>
      rw [List.cons_append, consecutive, consecutive, ih, List.length_cons, List.cons_append,
        Nat.add_right_comm, Nat.add_assoc]

/-- Consecutive writes are for ascending addresses. -/
theorem pairwise_consecutive (address : Nat) (data : List UInt8) :
    (consecutive address data).Pairwise fun earlier later => earlier.address < later.address := by
  induction data generalizing address with
  | nil => exact .nil
  | cons byte rest ih =>
      refine List.pairwise_cons.mpr ⟨fun later hlater => ?_, ih (address + 1)⟩
      obtain ⟨index, -, hindex⟩ := mem_consecutive.mp hlater
      simp only
      omega

theorem last?_consecutive (address other : Nat) (data : List UInt8) :
    last? (consecutive address data) other =
      if address ≤ other then data[other - address]? else none := by
  induction data generalizing address with
  | nil => simp [consecutive, last?]
  | cons byte rest ih =>
      simp only [consecutive, last?, ih]
      rcases Nat.lt_trichotomy address other with hlt | rfl | hgt
      · obtain ⟨distance, rfl⟩ := Nat.exists_eq_add_of_lt hlt
        rw [if_pos (by omega), if_neg (by omega), if_pos (by omega), Option.or_none,
          show address + distance + 1 - address = distance + 1 by omega,
          show address + distance + 1 - (address + 1) = distance by omega,
          List.getElem?_cons_succ]
      · rw [if_neg (by omega), if_pos rfl, if_pos (Nat.le_refl _), Nat.sub_self]
        rfl
      · rw [if_neg (by omega), if_neg (by omega), if_neg (by omega)]
        rfl

theorem stop_consecutive (address : Nat) (data : List UInt8) :
    stop (consecutive address data) = if data.isEmpty then 0 else address + data.length := by
  induction data generalizing address with
  | nil => rfl
  | cons byte rest ih =>
      rw [consecutive, stop, ih]
      cases rest with
      | nil => simp
      | cons next more =>
          simp only [List.isEmpty_cons, Bool.false_eq_true, if_false, List.length_cons]
          omega

/-! ## The last byte and the end -/

theorem stop_append (first second : List Write) :
    stop (first ++ second) = max (stop first) (stop second) := by
  induction first with
  | nil => simp [stop]
  | cons write rest ih =>
      rw [List.cons_append, stop, stop, ih]
      omega

theorem mem_of_last? {byte : UInt8} (h : last? writes address = some byte) :
    ⟨address, byte⟩ ∈ writes := by
  induction writes with
  | nil => simp [last?] at h
  | cons write rest ih =>
      rw [last?, Option.or_eq_some_iff] at h
      rcases h with hrest | ⟨-, hhere⟩
      · exact List.mem_cons_of_mem _ (ih hrest)
      · split at hhere
        · rename_i heq
          cases write
          simp_all
        · cases hhere

theorem last?_eq_none_iff :
    last? writes address = none ↔ ∀ write ∈ writes, write.address ≠ address := by
  induction writes with
  | nil => simp [last?]
  | cons write rest ih =>
      rw [last?, Option.or_eq_none_iff, ih]
      simp [and_comm]

/-- When all writes agree with a function, so does the last one. -/
theorem last?_of_forall {value : Nat → Option UInt8}
    (h : ∀ write ∈ writes, value write.address = some write.byte)
    (haddress : ∃ write ∈ writes, write.address = address) :
    last? writes address = value address := by
  cases hlast : last? writes address with
  | none =>
      obtain ⟨write, hmem, heq⟩ := haddress
      exact absurd heq (last?_eq_none_iff.mp hlast write hmem)
  | some byte => exact (h _ (mem_of_last? hlast)).symm

theorem lt_stop {write : Write} (h : write ∈ writes) : write.address < stop writes := by
  induction writes with
  | nil => cases h
  | cons first rest ih =>
      rw [stop]
      rcases List.mem_cons.mp h with rfl | hrest
      · omega
      · have := ih hrest
        omega

theorem stop_le {bound : Nat} (h : ∀ write ∈ writes, write.address < bound) :
    stop writes ≤ bound := by
  induction writes with
  | nil => exact Nat.zero_le _
  | cons write rest ih =>
      rw [stop]
      have := h write List.mem_cons_self
      have := ih fun other hother => h other (List.mem_cons_of_mem _ hother)
      omega

end Write

/-! ## An image after writes -/

namespace Image

/-- The image after writes in order, each for the cell that lies `offset` above its
address, as far as this cell exists. -/
def apply (image : Image) (offset : Nat) (writes : List Write) : Image :=
  writes.foldl (fun current write => current.set (offset + write.address) write.byte) image

/-- Images are equal when their cells are. -/
theorem ext_get? {image other : Image} (h : ∀ address, image.get? address = other.get? address) :
    image = other := by
  cases image
  cases other
  exact congrArg Image.mk (Array.ext_getElem? h)

theorem apply_append (image : Image) (offset : Nat) (first second : List Write) :
    image.apply offset (first ++ second) = (image.apply offset first).apply offset second :=
  List.foldl_append

@[simp] theorem capacity_apply (image : Image) (offset : Nat) (writes : List Write) :
    (image.apply offset writes).capacity = image.capacity := by
  induction writes generalizing image with
  | nil => rfl
  | cons write rest ih => exact (ih _).trans (capacity_set ..)

/-- A cell holds the last byte that is written for it, or what it held before. -/
theorem get?_apply (image : Image) (offset cell : Nat) (writes : List Write) :
    (image.apply offset writes).get? cell =
      if offset ≤ cell ∧ cell < image.capacity then
        (Write.last? writes (cell - offset)).or (image.get? cell)
      else image.get? cell := by
  induction writes generalizing image with
  | nil => simp [apply, Write.last?]
  | cons write rest ih =>
      have hstep : image.apply offset (write :: rest) =
          (image.set (offset + write.address) write.byte).apply offset rest := rfl
      rw [hstep, ih, capacity_set, get?_set, Write.last?]
      -- the first write only shows where no later one is for the same cell
      by_cases hcell : offset + write.address = cell
      · subst hcell
        simp only [if_true, Nat.le_add_right, true_and, Nat.add_sub_cancel_left]
        split
        · simp
        · rename_i hroom
          exact (get?_eq_none_iff.mpr (Nat.le_of_not_lt hroom)).symm
      · rw [if_neg hcell]
        split
        · rename_i hroom
          rw [if_neg (by omega), Option.or_none]
        · rfl

/-- Storing bytes is writing them one by one. -/
theorem store_eq_apply (image : Image) (offset address : Nat) (data : List UInt8) :
    (image.store (offset + address) data).1 =
      image.apply offset (Write.consecutive address data) := by
  refine ext_get? fun cell => ?_
  rw [get?_store, get?_apply, Write.last?_consecutive]
  by_cases hbehind : offset + address ≤ cell ∧ cell < image.capacity
  · rw [if_pos (show offset ≤ cell ∧ cell < image.capacity by omega),
      if_pos (show address ≤ cell - offset by omega), Nat.sub_sub]
    by_cases hinside : cell < offset + address + data.length
    · rw [if_pos ⟨hbehind.1, hinside, hbehind.2⟩,
        List.getElem?_eq_getElem (show cell - (offset + address) < data.length by omega)]
      rfl
    · rw [if_neg (fun h => hinside h.2.1), List.getElem?_eq_none (by omega)]
      rfl
  · rw [if_neg (fun h => hbehind ⟨h.1, h.2.2⟩)]
    split
    · rw [if_neg (by omega)]
      rfl
    · rfl

end Image

end IspStream
