import IspStream.Image.Decode
import IspStream.Proofs.Decoding.Writes
import Mathlib.Logic.Basic

/-!
# What decoding writes

A hex text stands for records, and records stand for writes: every data record
writes its payload behind its address and the two bases, and an address record
replaces its base for the records that follow.  `Record.writesOf` is this reading,
and `decodeLines_append` says that decoding follows it: accepted lines whose
writes all find a cell carry the bases, the end and the image from one state to
the next, whatever lines come behind them.

`decode_of_fits` is the case of a whole text.  A text with a line that is refused,
or with a write that finds no cell, is not decoded, so that `decode_eq_ok_iff` says
exactly when decoding succeeds and with which answer.
-/

namespace IspStream

theorem Outcome.after_after (outcome : Outcome) (first second : List Notice) :
    (outcome.after second).after first = outcome.after (first ++ second) := by
  simp [Outcome.after, List.append_assoc]

/-! ## Records and their writes -/

/-- The bases behind a record. -/
def Bases.step (bases : Bases) (record : Record) : Bases :=
  match record.kind with
  | .linearAddress => bases.setLinear record.addressValue?
  | .segmentAddress => bases.setSegment record.addressValue?
  | _ => bases

/-- The bases behind records. -/
def Bases.run (bases : Bases) (records : List Record) : Bases := records.foldl Bases.step bases

theorem Bases.run_append (bases : Bases) (first second : List Record) :
    bases.run (first ++ second) = (bases.run first).run second :=
  List.foldl_append

theorem Bases.step_of_not_isAddress {record : Record} (bases : Bases)
    (h : record.kind.isAddress = false) : bases.step record = bases := by
  unfold Bases.step
  cases hkind : record.kind with
  | linearAddress | segmentAddress =>
      rw [hkind] at h
      cases h
  | data | endOfFile | other code => rfl

/-- Without address records the bases stay as they are. -/
theorem Bases.run_of_not_isAddress {records : List Record} (bases : Bases)
    (h : ∀ record ∈ records, record.kind.isAddress = false) : bases.run records = bases := by
  induction records with
  | nil => rfl
  | cons record rest ih =>
      rw [List.forall_mem_cons] at h
      change (bases.step record).run rest = bases
      rw [step_of_not_isAddress bases h.1, ih h.2]

namespace Record

/-- The record of a line, if the line is not empty. -/
def ofLine (line : List Char) : Except Fault (Option Record) :=
  match Text.trimEnd line with
  | [] => .ok none
  | content => (parse content).map some

/-- The records of those lines that hold one. -/
def ofLines (lines : List (List Char)) : List Record :=
  lines.filterMap fun line => (ofLine line).toOption.join

/-- No line is refused. -/
def Accepted (lines : List (List Char)) : Prop :=
  ∀ line ∈ lines, ∃ record?, ofLine line = .ok record?

theorem ofLines_cons (line : List Char) (rest : List (List Char)) :
    ofLines (line :: rest) = (ofLine line).toOption.join.toList ++ ofLines rest := by
  rw [ofLines, List.filterMap_cons]
  cases (ofLine line).toOption.join <;> rfl

/-- What a record writes under the given bases. -/
def writes (bases : Bases) (record : Record) : List Write :=
  match record.kind with
  | .data => Write.consecutive (bases.locate record) record.data
  | _ => []

/-- What records write, starting with the given bases. -/
def writesOf : Bases → List Record → List Write
  | _, [] => []
  | bases, record :: rest => record.writes bases ++ writesOf (bases.step record) rest

theorem writesOf_append (bases : Bases) (first second : List Record) :
    writesOf bases (first ++ second) =
      writesOf bases first ++ writesOf (bases.run first) second := by
  induction first generalizing bases with
  | nil => rfl
  | cons record rest ih =>
      rw [List.cons_append, writesOf, writesOf, ih, List.append_assoc]
      rfl

/-- What a text writes. -/
def writesOfText (text : String) : List Write := writesOf {} (ofLines (Text.lines text.toList))

/-- The report on a record of a kind that is not interpreted. -/
def reports (record : Record) (number : Nat) : List Notice :=
  match record.kind with
  | .other code => [.unknownRecord code number]
  | _ => []

/-- The reports on the lines from the given line number on. -/
def reportsOf : Nat → List (List Char) → List Notice
  | _, [] => []
  | number, line :: rest =>
    ((ofLine line).toOption.join.toList.flatMap fun record => record.reports number) ++
      reportsOf (number + 1) rest

end Record

namespace Image

open Record

variable {offset number : Nat} {lines done rest : List (List Char)} {bases : Bases} {stop : Nat}
  {image : Image}

/-- All writes find a cell. -/
def Fits (image : Image) (offset : Nat) (writes : List Write) : Prop :=
  ∀ write ∈ writes, offset + write.address < image.capacity

instance (image : Image) (offset : Nat) (writes : List Write) :
    Decidable (image.Fits offset writes) :=
  inferInstanceAs (Decidable (∀ write ∈ writes, _))

@[simp] theorem fits_nil : image.Fits offset [] :=
  fun _ h => absurd h List.not_mem_nil

theorem fits_append {first second : List Write} :
    image.Fits offset (first ++ second) ↔
      image.Fits offset first ∧ image.Fits offset second := by
  simp only [Fits, List.mem_append, or_imp, forall_and]

@[simp] theorem fits_apply {writes others : List Write} :
    (image.apply offset writes).Fits offset others ↔ image.Fits offset others := by
  simp only [Fits, capacity_apply]

/-! ## One line -/

/-- Bytes for consecutive addresses all find a cell if there are none or the last
one does. -/
theorem fits_consecutive_iff {address : Nat} {data : List UInt8} :
    image.Fits offset (Write.consecutive address data) ↔
      data = [] ∨ offset + address + data.length ≤ image.capacity := by
  constructor
  · intro h
    rcases List.eq_nil_or_concat data with rfl | ⟨front, byte, rfl⟩
    · exact Or.inl rfl
    · have hlast := h ⟨address + front.length, byte⟩
        (Write.mem_consecutive.mpr ⟨front.length, by simp, rfl⟩)
      right
      simp only [List.concat_eq_append, List.length_append, List.length_singleton] at hlast ⊢
      omega
  · intro h write hmem
    obtain ⟨index, hbyte, haddress⟩ := Write.mem_consecutive.mp hmem
    have hindex := (List.getElem?_eq_some_iff.mp hbyte).1
    rcases h with rfl | hroom
    · cases hindex
    · omega

theorem store_record (image : Image) (offset address : Nat) (data : List UInt8) :
    image.store (offset + address) data =
      (image.apply offset (Write.consecutive address data),
        if image.Fits offset (Write.consecutive address data) then none
        else some (max (offset + address) image.capacity)) := by
  refine Prod.ext (store_eq_apply ..) ?_
  rw [snd_store]
  exact if_congr fits_consecutive_iff.symm rfl rfl

theorem extendedEnd_eq (stop address : Nat) (data : List UInt8) :
    extendedEnd stop address data = max stop (Write.stop (Write.consecutive address data)) := by
  rw [extendedEnd, Write.stop_consecutive]
  split
  · exact (Nat.max_eq_left (Nat.zero_le stop)).symm
  · rfl

/-- What one line does, whatever lines come behind it. -/
theorem decodeLines_cons (offset number : Nat) (line : List Char) (rest : List (List Char))
    (bases : Bases) (stop : Nat) (image : Image) :
    decodeLines offset number (line :: rest) bases stop image =
      match ofLine line with
      | .error fault => .stop image (.error (.record fault number))
      | .ok none => decodeLines offset (number + 1) rest bases stop image
      | .ok (some record) =>
        if image.Fits offset (record.writes bases) then
          (decodeLines offset (number + 1) rest (bases.step record)
            (max stop (Write.stop (record.writes bases)))
            (image.apply offset (record.writes bases))).after (record.reports number)
        else
          .stop (image.apply offset (record.writes bases)) (.error
            (.capacity (max (offset + bases.locate record) image.capacity) image.capacity
              number)) := by
  rw [decodeLines, ofLine]
  cases Text.trimEnd line with
  | nil => rfl
  | cons first more =>
      cases hparse : parse (first :: more) with
      | error fault => simp only [hparse, Except.map]
      | ok record =>
          obtain ⟨address, kind, data⟩ := record
          simp only [hparse, Except.map]
          cases kind with
          | data =>
              simp only [store_record, extendedEnd_eq, writes]
              by_cases hfits : image.Fits offset
                  (Write.consecutive (bases.locate ⟨address, .data, data⟩) data)
              · simp only [if_pos hfits]
                exact (if_pos hfits).symm
              · simp only [if_neg hfits, capacity_apply]
                exact (if_neg hfits).symm
          | _ =>
              -- records of the other kinds write nothing, and so always fit
              simp [writes, fits_nil, Write.stop, apply, Bases.step, reports, Outcome.after]

/-! ## Many lines -/

/-- Accepted lines whose writes all find a cell only change the state in which the
lines behind them are decoded. -/
theorem decodeLines_append (haccepted : Accepted done)
    (hfits : image.Fits offset (writesOf bases (ofLines done))) :
    decodeLines offset number (done ++ rest) bases stop image =
      (decodeLines offset (number + done.length) rest (bases.run (ofLines done))
        (max stop (Write.stop (writesOf bases (ofLines done))))
        (image.apply offset (writesOf bases (ofLines done)))).after (reportsOf number done) := by
  induction done generalizing number bases stop image with
  | nil => simp [ofLines, writesOf, Write.stop, apply, Bases.run, reportsOf, Outcome.after]
  | cons line more ih =>
      obtain ⟨record?, hline⟩ := haccepted line List.mem_cons_self
      have hmore : Accepted more := fun other hother =>
        haccepted other (List.mem_cons_of_mem _ hother)
      have hrecords : ofLines (line :: more) = record?.toList ++ ofLines more := by
        rw [ofLines_cons, hline]
        rfl
      have hnumber : number + (line :: more).length = number + 1 + more.length := by
        rw [List.length_cons]
        omega
      rw [List.cons_append, decodeLines_cons, reportsOf, hline, hnumber]
      rw [hrecords] at hfits ⊢
      cases record? with
      | none => exact ih hmore hfits
      | some record =>
          -- the record is decoded first, and the rest in the state behind it
          have hsplit := fits_append.mp hfits
          simp only [if_pos hsplit.1]
          rw [ih hmore (fits_apply.mpr hsplit.2), Outcome.after_after]
          simp [writesOf, Write.stop_append, apply_append, Bases.run, Nat.max_assoc,
            Except.toOption]

/-- Lines are decoded only if all of them are accepted and all writes find a cell. -/
theorem accepted_of_decodeLines_eq_ok {final : Nat}
    (h : (decodeLines offset number lines bases stop image).result = .ok final) :
    Accepted lines ∧ image.Fits offset (writesOf bases (ofLines lines)) := by
  induction lines generalizing number bases stop image with
  | nil => exact ⟨fun _ hline => absurd hline List.not_mem_nil, fits_nil⟩
  | cons line rest ih =>
      rw [decodeLines_cons] at h
      rw [ofLines_cons, Accepted, List.forall_mem_cons]
      cases hline : ofLine line with
      | error fault => simp [hline, Outcome.stop] at h
      | ok record? =>
          rw [hline] at h
          cases record? with
          | none =>
              obtain ⟨haccepted, hfits⟩ := ih h
              exact ⟨⟨⟨none, rfl⟩, haccepted⟩, hfits⟩
          | some record =>
              by_cases hhere : image.Fits offset (record.writes bases)
              · simp only [if_pos hhere] at h
                obtain ⟨haccepted, hfits⟩ := ih h
                exact ⟨⟨⟨some record, rfl⟩, haccepted⟩,
                  fits_append.mpr ⟨hhere, fits_apply.mp hfits⟩⟩
              · simp [if_neg hhere, Outcome.stop] at h

/-! ## A whole text -/

/-- An accepted text whose writes all find a cell is decoded. -/
theorem decode_of_fits {text : String} (haccepted : Accepted (Text.lines text.toList))
    (hfits : image.Fits offset (writesOfText text)) :
    image.decode text offset =
      ⟨image.apply offset (writesOfText text), reportsOf 1 (Text.lines text.toList),
        .ok (Write.stop (writesOfText text))⟩ := by
  rw [decode, ← List.append_nil (Text.lines text.toList), decodeLines_append haccepted hfits,
    Nat.zero_max]
  simp [decodeLines, Outcome.stop, Outcome.after, writesOfText]

/-- A text is decoded exactly if its lines are accepted and its writes all find a
cell, and then the answer is the end of what it writes. -/
theorem decode_eq_ok_iff {text : String} {final : Nat} :
    (image.decode text offset).result = .ok final ↔
      Accepted (Text.lines text.toList) ∧ image.Fits offset (writesOfText text) ∧
        final = Write.stop (writesOfText text) := by
  constructor
  · intro h
    obtain ⟨haccepted, hfits⟩ := accepted_of_decodeLines_eq_ok h
    rw [decode_of_fits haccepted hfits] at h
    exact ⟨haccepted, hfits, (Except.ok.inj h).symm⟩
  · rintro ⟨haccepted, hfits, rfl⟩
    rw [decode_of_fits haccepted hfits]

/-- Decoding leaves the cells behind the end of the writes alone. -/
theorem get?_decode_of_le {text : String} {final cell : Nat}
    (h : (image.decode text offset).result = .ok final) (hcell : offset + final ≤ cell) :
    (image.decode text offset).image.get? cell = image.get? cell := by
  obtain ⟨haccepted, hfits, rfl⟩ := decode_eq_ok_iff.mp h
  have hnone : Write.last? (writesOfText text) (cell - offset) = none := by
    rw [Write.last?_eq_none_iff]
    intro write hmem
    have := Write.lt_stop hmem
    omega
  rw [decode_of_fits haccepted hfits, get?_apply, hnone]
  exact ite_self _

theorem capacity_decode_of_ok {text : String} {final : Nat}
    (h : (image.decode text offset).result = .ok final) :
    (image.decode text offset).image.capacity = image.capacity := by
  obtain ⟨haccepted, hfits, -⟩ := decode_eq_ok_iff.mp h
  rw [decode_of_fits haccepted hfits, capacity_apply]

end Image

end IspStream
