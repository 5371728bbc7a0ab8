import IspStream.Proofs.Decoding.AddressMap
import Mathlib.Data.List.Basic

/-!
# An offset only moves things

Decoding with an offset is decoding without one into the cells from the offset on, as an image
of their own (`Image.above`).  Relative addresses and the bases know nothing of the offset, so
that both runs report the same end, and refuse the same lines.  Only the address of a byte
without a cell, and the number of cells, are counted from the start of the image, and both are
higher by the offset there (`Error.raised`).

`Translated` relates what two runs leave behind, whether they succeed or fail.  One line keeps
it, because writing commutes with leaving the lower cells out (`above_apply`), and so do all
lines of a text.
-/

namespace IspStream

/-- The error for the same line when all cells have higher addresses by some distance. -/
def Error.raised (distance : Nat) : Error → Error
  | .capacity address size line => .capacity (address + distance) (size + distance) line
  | error => error

namespace Image

open Record

/-- The cells from an address on, as an image of their own. -/
def above (image : Image) (offset : Nat) : Image := ⟨image.cells.extract offset image.capacity⟩

variable {image : Image} {offset : Nat} {writes : List Write}

/-! ## The cells from an address on -/

@[simp] theorem capacity_above (image : Image) (offset : Nat) :
    (image.above offset).capacity = image.capacity - offset := by
  rw [above, capacity, Array.size_extract, capacity, Nat.min_self]

theorem get?_above (image : Image) (offset cell : Nat) :
    (image.above offset).get? cell = image.get? (offset + cell) := by
  by_cases hcell : cell < image.capacity - offset
  · rw [above, get?, Array.getElem?_extract, if_pos (by rwa [capacity, Nat.min_self] at *)]
    rfl
  · rw [get?_eq_none_iff.mpr (by rw [capacity_above]; omega), eq_comm, get?_eq_none_iff]
    omega

theorem fits_above_iff : (image.above offset).Fits 0 writes ↔ image.Fits offset writes := by
  refine forall_congr' fun write => imp_congr_right fun _ => ?_
  rw [capacity_above, Nat.zero_add]
  omega

/-- Writing with an offset is writing into the cells above it. -/
theorem above_apply (image : Image) (offset : Nat) (writes : List Write) :
    (image.apply offset writes).above offset = (image.above offset).apply 0 writes := by
  refine ext_get? fun cell => ?_
  rw [get?_above, get?_apply, get?_apply, get?_above, capacity_above, Nat.add_sub_cancel_left,
    Nat.sub_zero]
  exact if_congr (by omega) rfl rfl

theorem get?_apply_of_lt {cell : Nat} (writes : List Write) (h : cell < offset) :
    (image.apply offset writes).get? cell = image.get? cell := by
  rw [get?_apply, if_neg (by omega)]

/-! ## Two runs -/

/-- What a run over an image with an offset leaves behind, compared with a run over the cells
from the offset on: below the offset nothing is written, and above it both runs agree. -/
structure Translated (image : Image) (offset : Nat) (one two : Outcome) : Prop where
  capacity_eq : one.image.capacity = image.capacity
  untouched : ∀ cell < offset, one.image.get? cell = image.get? cell
  above_eq : one.image.above offset = two.image
  notices_eq : one.notices = two.notices
  result_eq : one.result = two.result.mapError (Error.raised offset)

namespace Translated

variable {one two : Outcome}

theorem after (h : Translated image offset one two) (earlier : List Notice) :
    Translated image offset (one.after earlier) (two.after earlier) :=
  { h with notices_eq := congrArg (earlier ++ ·) h.notices_eq }

/-- Earlier writes with the same offset make no difference to what a run may touch. -/
theorem of_apply (h : Translated (image.apply offset writes) offset one two) :
    Translated image offset one two where
  capacity_eq := h.capacity_eq.trans (capacity_apply ..)
  untouched cell hcell := (h.untouched cell hcell).trans (get?_apply_of_lt writes hcell)
  above_eq := h.above_eq
  notices_eq := h.notices_eq
  result_eq := h.result_eq

/-- A run that ends here has only to report the same, apart from where things lie. -/
theorem stop (image : Image) (offset : Nat) (result : Except Error Nat) :
    Translated image offset (.stop image (result.mapError (Error.raised offset)))
      (.stop (image.above offset) result) :=
  ⟨rfl, fun _ _ => rfl, rfl, rfl, rfl⟩

end Translated

/-- The first address without a cell is higher by the offset, since the offset is not behind
the end of the image. -/
theorem raised_capacity (h : offset ≤ image.capacity) (address number : Nat) :
    (Error.capacity (max (0 + address) (image.above offset).capacity) (image.above offset).capacity
        number).raised offset =
      .capacity (max (offset + address) image.capacity) image.capacity number := by
  rw [Error.raised, capacity_above]
  congr 1 <;> omega

/-- Decoding the same lines from the same state keeps both runs together. -/
theorem translated_decodeLines (number : Nat) (lines : List (List Char)) (bases : Bases)
    (stop : Nat) (h : offset ≤ image.capacity) :
    Translated image offset (decodeLines offset number lines bases stop image)
      (decodeLines 0 number lines bases stop (image.above offset)) := by
  induction lines generalizing number bases stop image with
  | nil => exact .stop image offset (.ok stop)
  | cons line rest ih =>
      rw [decodeLines_cons, decodeLines_cons]
      cases ofLine line with
      | error fault => exact .stop image offset (.error (.record fault number))
      | ok record? =>
          cases record? with
          | none => exact ih (number + 1) bases stop h
          | some record =>
              simp only [fits_above_iff, ← above_apply]
              split
              · have hroom : offset ≤ (image.apply offset (record.writes bases)).capacity := by
                  rwa [capacity_apply]
                have hrest := ih (number + 1) (bases.step record)
                  (max stop (Write.stop (record.writes bases))) hroom
                exact (hrest.after _).of_apply
              · rw [← raised_capacity h]
                exact (Translated.stop _ offset (.error _)).of_apply

/-- **The offset is a translation.**  Decoding with an offset inside the image leaves the cells
below it alone, does to the others what decoding without an offset does to them by themselves,
and reports the same, except that a byte without a cell is reported with the address and the
capacity of the whole image. -/
theorem decode_translated (image : Image) (text : String) (offset : Nat)
    (h : offset ≤ image.capacity) :
    Translated image offset (image.decode text offset) ((image.above offset).decode text 0) :=
  translated_decodeLines 1 _ {} 0 h

/-- Two bytes of a record find a cell above the offset, and the third one does not. -/
theorem decode_translated_third_byte :
    let image := Image.blank 8
    let text := ":03000200010203F5\n"
    4 ≤ image.capacity ∧
      Translated image 4 (image.decode text 4) ((image.above 4).decode text 0) ∧
      (image.decode text 4).result = .error (.capacity 8 8 1) ∧
      ((image.above 4).decode text 0).result = .error (.capacity 4 4 1) ∧
      ((image.above 4).decode text 0).image.slice 0 4 = [0xFF, 0xFF, 1, 2] := by
  intro image text
  have hoffset : 4 ≤ image.capacity := by decide
  exact ⟨hoffset, decode_translated image text 4 hoffset, by decide +kernel, by decide +kernel,
    by decide +kernel⟩

end Image

end IspStream
