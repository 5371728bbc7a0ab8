import IspStream.Proofs.Decoding.Failure
import Mathlib.Data.List.Basic

/-!
# The order of records that do not overlap

Two data records with no byte for the same address may change places, as long as no address
record stands between them.  `Reordered` cuts a text into lines that stay where they are and
stretches without an address record, in which the lines may be permuted.  Records of different
stretches may well overlap, and then the later stretch still wins.

## Strategy

What decoding does follows from the list of its writes.  Two such lists serve the same purpose
(`Write.Interchangeable`) when they hold the same writes and end with the same byte at every
address.  That is so for the permuted writes of one stretch, because each address occurs only
once there, and it is kept when lists are put together.
-/

namespace IspStream

namespace Write

variable {first second others more writes : List Write} {address : Nat} {byte : UInt8}

/-! ## Lists of writes that serve the same purpose -/

/-- The same writes are made, and the last one for each address is the same. -/
structure Interchangeable (first second : List Write) : Prop where
  mem_iff : ∀ write, write ∈ first ↔ write ∈ second
  last?_eq : ∀ address, last? first address = last? second address

/-- Where every address is written only once, each write is the last one for its address. -/
theorem last?_eq_some_iff
    (h : writes.Pairwise fun earlier later => earlier.address ≠ later.address) :
    last? writes address = some byte ↔ ⟨address, byte⟩ ∈ writes := by
  refine ⟨mem_of_last?, fun hmem => ?_⟩
  obtain ⟨before, after, rfl⟩ := List.append_of_mem hmem
  have hafter : last? after address = none := by
    rw [last?_eq_none_iff]
    intro write hwrite heq
    exact (List.pairwise_cons.mp (List.pairwise_append.mp h).2.1).1 write hwrite heq.symm
  induction before with
  | nil => rw [List.nil_append, last?, hafter, if_pos rfl, Option.none_or]
  | cons write rest ih =>
      rw [List.cons_append, last?, ih (List.pairwise_cons.mp h).2 (by simp), Option.some_or]

namespace Interchangeable

theorem refl (writes : List Write) : Interchangeable writes writes :=
  ⟨fun _ => Iff.rfl, fun _ => rfl⟩

theorem of_perm (h : first.Perm second)
    (hapart : first.Pairwise fun earlier later => earlier.address ≠ later.address) :
    Interchangeable first second where
  mem_iff _ := h.mem_iff
  last?_eq address := by
    have hsecond := h.pairwise hapart Ne.symm
    refine Option.ext fun byte => ?_
    rw [last?_eq_some_iff hapart, last?_eq_some_iff hsecond, h.mem_iff]

theorem append (h : Interchangeable first second) (hmore : Interchangeable others more) :
    Interchangeable (first ++ others) (second ++ more) where
  mem_iff write := by rw [List.mem_append, List.mem_append, h.mem_iff, hmore.mem_iff]
  last?_eq address := by rw [last?_append, last?_append, h.last?_eq, hmore.last?_eq]

theorem stop_eq (h : Interchangeable first second) : stop first = stop second := by
  apply Nat.le_antisymm
  · exact stop_le fun write hwrite => lt_stop ((h.mem_iff write).mp hwrite)
  · exact stop_le fun write hwrite => lt_stop ((h.mem_iff write).mpr hwrite)

theorem fits_iff (h : Interchangeable first second) (image : Image) (offset : Nat) :
    image.Fits offset first ↔ image.Fits offset second :=
  forall_congr' fun write => imp_congr_left (h.mem_iff write)

theorem apply_eq (h : Interchangeable first second) (image : Image) (offset : Nat) :
    image.apply offset first = image.apply offset second := by
  refine Image.ext_get? fun cell => ?_
  rw [Image.get?_apply, Image.get?_apply, h.last?_eq]

end Interchangeable

end Write

namespace Record

variable {lines others : List (List Char)} {records : List Record} {bases : Bases}

/-! ## Stretches without an address record -/

/-- No byte of one record has the address of a byte of the other, where the bases are the same
for both. -/
def Apart (first second : Record) : Prop :=
  ∀ index < first.data.length, ∀ place < second.data.length,
    first.address.toNat + index ≠ second.address.toNat + place

instance (first second : Record) : Decidable (Apart first second) :=
  inferInstanceAs (Decidable (∀ index < _, ∀ place < _, _))

/-- The lines of the second text are those of the first one in another order.  Lines change
places only within a stretch that holds no address record, and whose data records are apart. -/
inductive Reordered : List (List Char) → List (List Char) → Prop where
  /-- Nothing is left. -/
  | nil : Reordered [] []
  /-- A line stays where it is. -/
  | line {lines others : List (List Char)} (line : List Char) (rest : Reordered lines others) :
      Reordered (line :: lines) (line :: others)
  /-- The lines of a stretch are permuted. -/
  | stretch {stretch permuted lines others : List (List Char)} (perm : stretch.Perm permuted)
      (no_address : ∀ record ∈ ofLines stretch, record.kind.isAddress = false)
      (apart : ((ofLines stretch).filter fun record => decide (record.kind = .data)).Pairwise
        Apart)
      (rest : Reordered lines others) : Reordered (stretch ++ lines) (permuted ++ others)

/-- Without address records every record writes by itself. -/
theorem writesOf_of_not_isAddress (h : ∀ record ∈ records, record.kind.isAddress = false) :
    writesOf bases records = records.flatMap (writes bases) := by
  induction records with
  | nil => rfl
  | cons record rest ih =>
      rw [List.forall_mem_cons] at h
      rw [writesOf, Bases.step_of_not_isAddress bases h.1, ih h.2, List.flatMap_cons]

theorem pairwise_writes (bases : Bases) (record : Record) :
    (record.writes bases).Pairwise fun earlier later => earlier.address ≠ later.address := by
  unfold writes
  split
  · exact (Write.pairwise_consecutive _ _).imp Nat.ne_of_lt
  · exact .nil

/-- Records that are apart write for different addresses. -/
theorem Apart.address_ne {first second : Record} (h : Apart first second) {one two : Write}
    (hone : one ∈ Write.consecutive (bases.locate first) first.data)
    (htwo : two ∈ Write.consecutive (bases.locate second) second.data) :
    one.address ≠ two.address := by
  obtain ⟨index, hindex, honeAddress⟩ := Write.mem_consecutive.mp hone
  obtain ⟨place, hplace, htwoAddress⟩ := Write.mem_consecutive.mp htwo
  have hapart := h index (List.getElem?_eq_some_iff.mp hindex).1 place
    (List.getElem?_eq_some_iff.mp hplace).1
  intro heq
  apply hapart
  simp only [Bases.locate] at honeAddress htwoAddress
  omega

/-- In a stretch whose data records are apart, every address is written only once. -/
theorem pairwise_flatMap_writes
    (h : (records.filter fun record => decide (record.kind = .data)).Pairwise Apart) :
    (records.flatMap (writes bases)).Pairwise fun earlier later =>
      earlier.address ≠ later.address := by
  rw [List.pairwise_flatMap]
  refine ⟨fun record _ => pairwise_writes bases record, ?_⟩
  rw [List.pairwise_filter] at h
  refine h.imp fun {first second} hapart one hone two htwo => ?_
  unfold writes at hone htwo
  split at hone
  · rename_i hfirst
    split at htwo
    · rename_i hsecond
      exact (hapart (decide_eq_true hfirst) (decide_eq_true hsecond)).address_ne hone htwo
    · cases htwo
  · cases hone

/-! ## Reordered texts -/

theorem Reordered.accepted_iff (h : Reordered lines others) :
    Accepted lines ↔ Accepted others := by
  refine forall_congr' fun line => imp_congr_left ?_
  induction h with
  | nil => exact Iff.rfl
  | line line rest ih => rw [List.mem_cons, List.mem_cons, ih]
  | stretch perm _ _ rest ih => rw [List.mem_append, List.mem_append, perm.mem_iff, ih]

/-- Reordered lines move the bases alike, and their writes serve the same purpose. -/
theorem Reordered.interchangeable (h : Reordered lines others) (bases : Bases) :
    Write.Interchangeable (writesOf bases (ofLines lines)) (writesOf bases (ofLines others)) := by
  induction h generalizing bases with
  | nil => exact .refl _
  | line line rest ih =>
      rw [ofLines_cons, ofLines_cons, writesOf_append, writesOf_append]
      exact .append (.refl _) (ih _)
  | @stretch stretch permuted lines others perm no_address apart rest ih =>
      have hrecords : (ofLines stretch).Perm (ofLines permuted) := perm.filterMap _
      have hpermuted : ∀ record ∈ ofLines permuted, record.kind.isAddress = false :=
        fun record hrecord => no_address record (hrecords.mem_iff.mpr hrecord)
      rw [ofLines_append, ofLines_append, writesOf_append, writesOf_append,
        Bases.run_of_not_isAddress bases no_address, Bases.run_of_not_isAddress bases hpermuted,
        writesOf_of_not_isAddress no_address, writesOf_of_not_isAddress hpermuted]
      exact .append (.of_perm (hrecords.flatMap_right _) (pairwise_flatMap_writes apart)) (ih _)

end Record

namespace Image

open Record

/-- **The order of records that are apart does not matter.**  When the lines of a text change
places within stretches that hold no address record, and in which no two data records have a
byte for the same address, the text is decoded if it was decoded before, with the same image
and the same end. -/
theorem decode_of_reordered {text other : String}
    (h : Reordered (Text.lines text.toList) (Text.lines other.toList)) (image : Image)
    (offset : Nat) :
    ((∃ final, (image.decode text offset).result = .ok final) ↔
      ∃ final, (image.decode other offset).result = .ok final) ∧
    ∀ final, (image.decode text offset).result = .ok final →
      (image.decode other offset).result = .ok final ∧
        (image.decode other offset).image = (image.decode text offset).image := by
  have hwrites : Write.Interchangeable (writesOfText text) (writesOfText other) :=
    h.interchangeable {}
  have hresult : ∀ final, (image.decode text offset).result = .ok final ↔
      (image.decode other offset).result = .ok final := by
    intro final
    rw [decode_eq_ok_iff, decode_eq_ok_iff, h.accepted_iff, hwrites.fits_iff, hwrites.stop_eq]
  refine ⟨exists_congr hresult, fun final hfinal => ⟨(hresult final).mp hfinal, ?_⟩⟩
  obtain ⟨haccepted, hfits, -⟩ := decode_eq_ok_iff.mp hfinal
  rw [decode_of_fits haccepted hfits,
    decode_of_fits (h.accepted_iff.mp haccepted) ((hwrites.fits_iff image offset).mp hfits),
    hwrites.apply_eq]

/-- Two records without common addresses change places behind one that both of them overlap. -/
theorem decode_of_reordered_swap :
    let text := ":020001000102FA\n:0100010007F7\n:0100020008F5\n"
    let other := ":020001000102FA\n:0100020008F5\n:0100010007F7\n"
    Reordered (Text.lines text.toList) (Text.lines other.toList) ∧
      ((Image.blank 4).decode text 0).result = .ok 3 ∧
      ((Image.blank 4).decode other 0).result = .ok 3 ∧
      ((Image.blank 4).decode other 0).image = ((Image.blank 4).decode text 0).image ∧
      ((Image.blank 4).decode other 0).image.slice 0 4 = [0xFF, 7, 8, 0xFF] := by
  intro text other
  have hlines : Text.lines text.toList = ":020001000102FA".toList ::
      ([":0100010007F7".toList, ":0100020008F5".toList] ++ []) := by decide +kernel
  have hothers : Text.lines other.toList = ":020001000102FA".toList ::
      ([":0100020008F5".toList, ":0100010007F7".toList] ++ []) := by decide +kernel
  have hreordered : Reordered (Text.lines text.toList) (Text.lines other.toList) := by
    rw [hlines, hothers]
    refine .line _ (.stretch (.swap _ _ []) ?_ ?_ .nil)
    · decide +kernel
    · decide +kernel
  have hfinal : ((Image.blank 4).decode text 0).result = .ok 3 := by decide +kernel
  obtain ⟨hresult, himage⟩ := (decode_of_reordered hreordered (Image.blank 4) 0).2 3 hfinal
  exact ⟨hreordered, hfinal, hresult, himage, by decide +kernel⟩

end Image

end IspStream
