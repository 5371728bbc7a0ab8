import IspStream.Proofs.Decoding.AddressMap
import IspStream.Proofs.Records.Reading
import Mathlib.Data.List.Basic

/-!
# Decoding places bytes by the last address records

Decoding carries two bases from record to record.  This file reads the same records
without any state: the base for a record is the number in the last address record of
its kind in front of it, and `Record.placements` puts each byte at the address field
plus the two bases plus its position.  The end-of-file mark and records of other kinds
contribute nothing, and nothing wraps at 64 KiB.

That both readings agree (`writesOf_eq_placements`) rests on what the record grammar
promises: an accepted address record carries exactly two bytes.  The main statement,
`decode_refines_placements`, then compares decoding with the stateless reading: when it
succeeds, which byte ends up in which cell, and what the answer is.
-/

namespace IspStream

/-! ## The last write and the highest address -/

namespace Write

variable {writes : List Write}

theorem consecutive_eq_mapIdx (address : Nat) (data : List UInt8) :
    consecutive address data = data.mapIdx fun index byte => ⟨address + index, byte⟩ := by
  induction data generalizing address with
  | nil => rfl
  | cons byte rest ih =>
      rw [consecutive, ih, List.mapIdx_cons]
      simp only [Nat.add_zero, Nat.add_assoc, Nat.add_comm 1]

theorem last?_append (before after : List Write) (address : Nat) :
    last? (before ++ after) address = (last? after address).or (last? before address) := by
  induction before with
  | nil => simp [last?]
  | cons write rest ih => rw [List.cons_append, last?, ih, last?, Option.or_assoc]

/-- The last byte for an address is the one behind which no other is written there. -/
theorem last?_of_eq_append {before after : List Write} {address : Nat} {byte : UInt8}
    (hsplit : writes = before ++ ⟨address, byte⟩ :: after)
    (hlast : ∀ write ∈ after, write.address ≠ address) : last? writes address = some byte := by
  have hafter : last? after address = none := last?_eq_none_iff.mpr hlast
  rw [hsplit, last?_append, last?, hafter, if_pos rfl]
  rfl

theorem stop_eq_max? (writes : List Write) :
    stop writes = (writes.map address).max?.elim 0 (· + 1) := by
  induction writes with
  | nil => rfl
  | cons write rest ih =>
      rw [stop, ih, List.map_cons, List.max?_cons]
      cases (rest.map address).max? with
      | none => simp
      | some highest =>
          simp only [Option.elim_some]
          omega

end Write

namespace Record

/-! ## The stateless reading -/

/-- The base behind records: the number in the last one of a kind, in the given unit,
and zero if there is none. -/
def baseBehind (kind : Kind) (unit : Nat) (records : List Record) : Nat :=
  match records.reverse.find? fun record => decide (record.kind = kind) with
  | some record => ofBigEndian record.data * unit
  | none => 0

/-- The relative address of the first byte of a record with others in front of it. -/
def addressBehind (earlier : List Record) (record : Record) : Nat :=
  record.address.toNat + baseBehind .linearAddress 0x10000 earlier +
    baseBehind .segmentAddress 0x10 earlier

/-- The bytes of records with their relative addresses, in the order of the records. -/
def placements (earlier : List Record) : List Record → List Write
  | [] => []
  | record :: rest =>
    (if record.kind = .data then
      record.data.mapIdx fun index byte => ⟨addressBehind earlier record + index, byte⟩
    else []) ++ placements (earlier ++ [record]) rest

/-- The bytes of a text with their relative addresses. -/
def placementsOfText (text : String) : List Write :=
  placements [] (ofLines (Text.lines text.toList))

/-! ## What the record grammar promises -/

theorem wellFormed_of_mem_ofLines {lines : List (List Char)} {record : Record}
    (h : record ∈ ofLines lines) : record.WellFormed := by
  obtain ⟨line, -, hline⟩ := List.mem_filterMap.mp h
  unfold ofLine at hline
  split at hline
  · cases hline
  · cases hparse : parse (Text.trimEnd line) with
    | error fault =>
        rw [hparse] at hline
        cases hline
    | ok parsed =>
        rw [hparse] at hline
        obtain rfl := Option.some.inj hline
        exact (exists_digits_of_parse hparse).1

/-! ## Both readings agree -/

theorem baseBehind_concat (kind : Kind) (unit : Nat) (earlier : List Record) (record : Record) :
    baseBehind kind unit (earlier ++ [record]) =
      if record.kind = kind then ofBigEndian record.data * unit
      else baseBehind kind unit earlier := by
  unfold baseBehind
  rw [List.reverse_append, List.reverse_singleton, List.singleton_append, List.find?_cons]
  by_cases hkind : record.kind = kind
  · rw [if_pos hkind, decide_eq_true hkind]
  · rw [if_neg hkind, decide_eq_false hkind]

/-- The bases that decoding carries behind records. -/
def basesBehind (earlier : List Record) : Bases where
  linear := baseBehind .linearAddress 0x10000 earlier
  segment := baseBehind .segmentAddress 0x10 earlier

theorem addressValue?_of_length {record : Record} (h : record.data.length = 2) :
    record.addressValue?.elim 0 UInt16.toNat = ofBigEndian record.data := by
  obtain ⟨high, low, hdata⟩ := List.length_eq_two.mp h
  have hhigh := high.toNat_lt
  have hlow := low.toNat_lt
  have hsmall : ofBigEndian [high, low] < 2 ^ 16 := by
    simp only [ofBigEndian, List.foldl_cons, List.foldl_nil]
    omega
  unfold addressValue?
  rw [hdata]
  simp only [Option.elim_some]
  rw [UInt16.toNat_ofNat', Nat.mod_eq_of_lt hsmall]

/-- A record moves the carried bases to what the stateless reading says behind it. -/
theorem step_basesBehind (earlier : List Record) {record : Record}
    (h : record.kind.isAddress = true → record.data.length = 2) :
    (basesBehind earlier).step record = basesBehind (earlier ++ [record]) := by
  unfold Bases.step basesBehind
  rw [baseBehind_concat, baseBehind_concat]
  cases hkind : record.kind with
  | linearAddress =>
      have hlength : record.data.length = 2 := h (by rw [hkind]; rfl)
      simp [Bases.setLinear, addressValue?_of_length hlength]
  | segmentAddress =>
      have hlength : record.data.length = 2 := h (by rw [hkind]; rfl)
      simp [Bases.setSegment, addressValue?_of_length hlength]
  | data | endOfFile | other code => simp

theorem writes_basesBehind (earlier : List Record) (record : Record) :
    record.writes (basesBehind earlier) =
      if record.kind = .data then
        record.data.mapIdx fun index byte => ⟨addressBehind earlier record + index, byte⟩
      else [] := by
  unfold writes
  cases hkind : record.kind with
  | data => exact Write.consecutive_eq_mapIdx ..
  | endOfFile | segmentAddress | linearAddress | other code => simp

theorem writesOf_eq_placements (earlier : List Record) {records : List Record}
    (h : ∀ record ∈ records, record.kind.isAddress = true → record.data.length = 2) :
    writesOf (basesBehind earlier) records = placements earlier records := by
  induction records generalizing earlier with
  | nil => rfl
  | cons record rest ih =>
      have hrecord := h record List.mem_cons_self
      have hrest := ih (earlier ++ [record]) fun other hother =>
        h other (List.mem_cons_of_mem _ hother)
      rw [writesOf, placements, writes_basesBehind, step_basesBehind earlier hrecord, hrest]

theorem writesOfText_eq_placementsOfText (text : String) :
    writesOfText text = placementsOfText text :=
  writesOf_eq_placements [] fun _ hrecord => (wellFormed_of_mem_ofLines hrecord).address_length

theorem accepted_iff {lines : List (List Char)} :
    Accepted lines ↔ ∀ line ∈ lines, Text.trimEnd line ≠ [] →
      ∃ record, parse (Text.trimEnd line) = .ok record := by
  unfold Accepted ofLine
  constructor
  · intro haccepted line hline hcontent
    obtain ⟨record?, hrecord⟩ := haccepted line hline
    split at hrecord
    · rename_i hempty
      exact absurd hempty hcontent
    · cases hparse : parse (Text.trimEnd line) with
      | error fault =>
          rw [hparse] at hrecord
          cases hrecord
      | ok record => exact ⟨record, rfl⟩
  · intro hparses line hline
    split
    · exact ⟨none, rfl⟩
    · rename_i content hcontent
      obtain ⟨record, hrecord⟩ := hparses line hline hcontent
      exact ⟨some record, by rw [hrecord]; rfl⟩

end Record

/-! ## Decoding against the stateless reading -/

namespace Image

open Record

/-- What writes make of an image: every cell holds the last byte that goes there, and a
cell where none goes is as before.  The answer is one past the highest address. -/
structure Placed (image : Image) (offset : Nat) (writes : List Write) (outcome : Outcome) :
    Prop where
  result_eq : outcome.result = .ok ((writes.map Write.address).max?.elim 0 (· + 1))
  capacity_eq : outcome.image.capacity = image.capacity
  written : ∀ before address byte after, writes = before ++ ⟨address, byte⟩ :: after →
    (∀ write ∈ after, write.address ≠ address) →
      outcome.image.get? (offset + address) = some byte
  unwritten : ∀ cell, (∀ write ∈ writes, offset + write.address ≠ cell) →
    outcome.image.get? cell = image.get? cell

variable {image : Image} {offset : Nat} {text : String}

theorem placed_decode (haccepted : Accepted (Text.lines text.toList))
    (hfits : image.Fits offset (writesOfText text)) :
    Placed image offset (writesOfText text) (image.decode text offset) := by
  rw [decode_of_fits haccepted hfits]
  refine ⟨?_, capacity_apply .., ?_, ?_⟩
  · rw [Write.stop_eq_max?]
  · intro before address byte after hsplit hlast
    have hroom : offset + address < image.capacity := by
      refine hfits ⟨address, byte⟩ ?_
      rw [hsplit]
      exact List.mem_append_right _ List.mem_cons_self
    rw [get?_apply, if_pos ⟨Nat.le_add_right .., hroom⟩, Nat.add_sub_cancel_left,
      Write.last?_of_eq_append hsplit hlast]
    rfl
  · intro cell hcell
    rw [get?_apply]
    split
    · rename_i hinside
      have hnone : Write.last? (writesOfText text) (cell - offset) = none := by
        rw [Write.last?_eq_none_iff]
        intro write hwrite haddress
        exact hcell write hwrite (by omega)
      rw [hnone]
      rfl
    · rfl

/-- **Decoding refines the stateless reading.**  A text is decoded exactly if every line
that is not blank is a record and every byte has a cell to go to, and then each cell holds
the last byte that goes there. -/
theorem decode_refines_placements (image : Image) (text : String) (offset : Nat) :
    ((∃ final, (image.decode text offset).result = .ok final) ↔
      (∀ line ∈ Text.lines text.toList, Text.trimEnd line ≠ [] →
        ∃ record, Record.parse (Text.trimEnd line) = .ok record) ∧
      ∀ write ∈ placementsOfText text, offset + write.address < image.capacity) ∧
    ∀ final, (image.decode text offset).result = .ok final →
      Placed image offset (placementsOfText text) (image.decode text offset) := by
  rw [← accepted_iff, ← writesOfText_eq_placementsOfText]
  refine ⟨⟨?_, ?_⟩, ?_⟩
  · rintro ⟨final, hfinal⟩
    obtain ⟨haccepted, hfits, -⟩ := decode_eq_ok_iff.mp hfinal
    exact ⟨haccepted, hfits⟩
  · rintro ⟨haccepted, hfits⟩
    exact ⟨_, (placed_decode haccepted hfits).result_eq⟩
  · intro final hfinal
    obtain ⟨haccepted, hfits, -⟩ := decode_eq_ok_iff.mp hfinal
    exact placed_decode haccepted hfits

end Image

end IspStream
