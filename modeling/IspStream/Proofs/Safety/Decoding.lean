import IspStream.Image.Load
import IspStream.Proofs.Decoding.Placement
import IspStream.Proofs.Safety.Records
import IspStream.Proofs.Text.Lines

/-!
# Decoding without a hazard

An address is a sum of four parts: the offset, the address field, the two bases and the
place in the payload.  Each base comes from sixteen bits, and a payload has 255 bytes at
most, so that no relative address is above `greatestAddress`, wherever the records of a text
lead (`address_le_of_mem_writesOfText`).  An offset that leaves 2^33 words free leaves room
for all of them.

The bases are bounded in every line and the end of the written addresses is as well, and
that carries `decodeLines_eq` from one line to the next.
-/

namespace IspStream.Guarded

/-- The greatest relative address: all bits of the address field and of both bases are set,
and the byte is the last one of a payload of 255. -/
def greatestAddress : Nat := 0x1001000ED

/-- The greatest offset that leaves room for the relative addresses. -/
def greatestOffset : Nat := 2 ^ 64 - 2 ^ 33

variable {offset base place number : Nat} {bytes : List UInt8} {bases : Bases} {record : Record}
  {image : Image} {lines : List (List Char)} {last? : Option Nat} {text : String}

/-! ## Guarded decoding -/

/-- Stores the payload of a record from the given place on, up to the first byte without a
cell. -/
def store (offset base : Nat) : Nat → List UInt8 → Image → Checked (Image × Option Nat)
  | _, [], image => .ok (image, none)
  | place, byte :: rest, image => do
    let address ← add base place
    let target ← add offset address
    let next ← add place 1
    if target < image.capacity then store offset base next rest (image.set target byte)
    else return (image, some target)

/-- The greatest address written so far, with the bytes of a record. -/
def furthest (last? : Option Nat) (base : Nat) (data : List UInt8) : Checked (Option Nat) :=
  if data.isEmpty then .ok last?
  else do
    let behind ← add base data.length
    let last ← subtract behind 1
    return some (last?.elim last (max last))

def decodeLines (offset : Nat) :
    Nat → List (List Char) → Bases → Option Nat → Image → Checked Outcome
  | _, [], _, none, image => .ok (.stop image (.ok 0))
  | _, [], _, some last, image => do
    let stop ← add last 1
    return .stop image (.ok stop)
  | index, line :: rest, bases, last?, image => do
    let number ← add index 1
    match Text.trimEnd line with
    | [] => decodeLines offset number rest bases last? image
    | content =>
      match ← parse content with
      | .error fault => return .stop image (.error (.record fault number))
      | .ok record =>
        match record.kind with
        | .data =>
          let above ← add record.address.toNat bases.linear
          let base ← add above bases.segment
          match ← store offset base 0 record.data image with
          | (image, none) =>
            let last? ← furthest last? base record.data
            decodeLines offset number rest bases last? image
          | (image, some outside) =>
            return .stop image (.error (.capacity outside image.capacity number))
        | .endOfFile => decodeLines offset number rest bases last? image
        | .segmentAddress =>
          let value ← expect record.addressValue?
          decodeLines offset number rest (bases.setSegment (some value)) last? image
        | .linearAddress =>
          let value ← expect record.addressValue?
          decodeLines offset number rest (bases.setLinear (some value)) last? image
        | .other code =>
          let outcome ← decodeLines offset number rest bases last? image
          return outcome.after [.unknownRecord code number]

def decode (image : Image) (text : String) (offset : Nat) : Checked Outcome :=
  decodeLines offset 0 (Text.lines text.toList) {} none image

def load (image : Image) (read : Files.Reader) (path : String) (offset : Nat) : Checked Outcome :=
  match read path with
  | .error fault => .ok (.stop image (.error (.file path fault)))
  | .ok text => decode image text offset

/-! ## Addresses -/

/-- Both bases come from sixteen bits. -/
structure Bounded (bases : Bases) : Prop where
  linear_le : bases.linear ≤ 0xFFFF0000
  segment_le : bases.segment ≤ 0xFFFF0

theorem bounded_start : Bounded {} := ⟨Nat.zero_le _, Nat.zero_le _⟩

theorem Bounded.setLinear (h : Bounded bases) (value : UInt16) :
    Bounded (bases.setLinear (some value)) := by
  have hvalue := value.toNat_lt
  refine ⟨?_, h.segment_le⟩
  change value.toNat * 0x10000 ≤ _
  omega

theorem Bounded.setSegment (h : Bounded bases) (value : UInt16) :
    Bounded (bases.setSegment (some value)) := by
  have hvalue := value.toNat_lt
  refine ⟨h.linear_le, ?_⟩
  change value.toNat * 0x10 ≤ _
  omega

/-- An address record carries a number, since the record grammar gives it two bytes. -/
theorem exists_addressValue? (h : record.WellFormed) (hkind : record.kind.isAddress = true) :
    ∃ value, record.addressValue? = some value := by
  obtain ⟨high, low, hdata⟩ := List.length_eq_two.mp (h.address_length hkind)
  rw [Record.addressValue?, hdata]
  exact ⟨_, rfl⟩

theorem Bounded.step (h : Bounded bases) (hrecord : record.WellFormed) :
    Bounded (bases.step record) := by
  unfold Bases.step
  split
  · rename_i hkind
    obtain ⟨value, hvalue⟩ := exists_addressValue? hrecord (by rw [hkind]; rfl)
    exact hvalue ▸ h.setLinear value
  · rename_i hkind
    obtain ⟨value, hvalue⟩ := exists_addressValue? hrecord (by rw [hkind]; rfl)
    exact hvalue ▸ h.setSegment value
  · exact h

/-- A record ends one behind the greatest address at most. -/
theorem Bounded.locate_le (h : Bounded bases) (hrecord : record.WellFormed) :
    bases.locate record + record.data.length ≤ greatestAddress + 1 := by
  have haddress := record.address.toNat_lt
  have hlinear := h.linear_le
  have hsegment := h.segment_le
  have hlength := hrecord.length_le
  unfold Bases.locate greatestAddress
  omega

theorem Bounded.room (h : Bounded bases) (hrecord : record.WellFormed)
    (hoffset : offset ≤ greatestOffset) :
    offset + (bases.locate record + record.data.length) < wordLimit := by
  have hlocate := h.locate_le hrecord
  unfold greatestOffset at hoffset
  unfold greatestAddress at hlocate
  unfold wordLimit
  omega

theorem address_le_of_mem_writesOf {records : List Record} {write : Write}
    (h : Bounded bases) (hrecords : ∀ record ∈ records, record.WellFormed)
    (hmem : write ∈ Record.writesOf bases records) : write.address ≤ greatestAddress := by
  induction records generalizing bases with
  | nil => cases hmem
  | cons record rest ih =>
      obtain ⟨hrecord, hrest⟩ := List.forall_mem_cons.mp hrecords
      rcases List.mem_append.mp hmem with hown | hlater
      · unfold Record.writes at hown
        split at hown
        · obtain ⟨index, hbyte, haddress⟩ := Write.mem_consecutive.mp hown
          have hindex := (List.getElem?_eq_some_iff.mp hbyte).1
          have hlocate := h.locate_le hrecord
          omega
        · cases hown
      · exact ih (h.step hrecord) hrest hlater

/-- No text leads to an address above the greatest one. -/
theorem address_le_of_mem_writesOfText {write : Write} (h : write ∈ Record.writesOfText text) :
    write.address ≤ greatestAddress :=
  address_le_of_mem_writesOf bounded_start (fun _ => Record.wellFormed_of_mem_ofLines) h

/-! ## One record -/

theorem store_from_eq (hlimit : offset + (base + place + bytes.length) < wordLimit)
    (image : Image) :
    store offset base place bytes image = .ok (image.store (offset + (base + place)) bytes) := by
  induction bytes generalizing place image with
  | nil => rfl
  | cons byte rest ih =>
      rw [List.length_cons] at hlimit
      rw [store, add_eq (by omega)]
      change (add offset (base + place)).bind _ = _
      rw [add_eq (by omega)]
      change (add place 1).bind _ = _
      rw [add_eq (by omega)]
      change (if offset + (base + place) < image.capacity then _ else _) = _
      rw [Image.store]
      split
      · exact ih (by omega) _
      · rfl

theorem store_eq (hlimit : offset + (base + bytes.length) < wordLimit) (image : Image) :
    store offset base 0 bytes image = .ok (image.store (offset + base) bytes) :=
  store_from_eq hlimit image

/-- One past the greatest address written so far. -/
def stopOf (last? : Option Nat) : Nat := last?.elim 0 (· + 1)

theorem furthest_eq (last? : Option Nat) (hlimit : base + bytes.length < wordLimit) :
    ∃ behind?, furthest last? base bytes = .ok behind? ∧
      stopOf behind? = extendedEnd (stopOf last?) base bytes := by
  unfold furthest extendedEnd
  split
  · exact ⟨last?, rfl, rfl⟩
  · rename_i hsome
    have hpositive : 0 < bytes.length := by
      rw [List.isEmpty_iff] at hsome
      exact List.length_pos_of_ne_nil hsome
    rw [add_eq hlimit]
    change ∃ behind?, (subtract (base + bytes.length) 1).bind _ = _ ∧ _
    rw [subtract_eq (by omega)]
    refine ⟨_, rfl, ?_⟩
    cases last? with
    | none =>
        change base + bytes.length - 1 + 1 = max 0 (base + bytes.length)
        omega
    | some last =>
        change max (base + bytes.length - 1) last + 1 = max (last + 1) (base + bytes.length)
        omega

/-- The end of the written addresses stays bounded. -/
theorem Bounded.extendedEnd_le {stop : Nat} (h : Bounded bases) (hrecord : record.WellFormed)
    (hstop : stop ≤ greatestAddress + 1) :
    extendedEnd stop (bases.locate record) record.data ≤ greatestAddress + 1 := by
  have hlocate := h.locate_le hrecord
  unfold extendedEnd
  split <;> omega

/-- The address of a record is added up from its three parts. -/
theorem base_eq (h : offset + (bases.locate record + record.data.length) < wordLimit) :
    add record.address.toNat bases.linear = .ok (record.address.toNat + bases.linear) ∧
      add (record.address.toNat + bases.linear) bases.segment = .ok (bases.locate record) := by
  unfold Bases.locate at h ⊢
  exact ⟨add_eq (by omega), add_eq (by omega)⟩

/-! ## Lines -/

theorem decodeLines_eq {index : Nat} (hoffset : offset ≤ greatestOffset)
    (hindex : index + lines.length < wordLimit) (hbases : Bounded bases)
    (hstop : stopOf last? ≤ greatestAddress + 1) (image : Image) :
    decodeLines offset index lines bases last? image =
      .ok (Image.decodeLines offset (index + 1) lines bases (stopOf last?) image) := by
  induction lines generalizing index bases last? image with
  | nil =>
      cases last? with
      | none => rfl
      | some last =>
          have hlimit : greatestAddress + 1 < wordLimit := by decide
          rw [decodeLines, add_eq (Nat.lt_of_le_of_lt hstop hlimit)]
          rfl
  | cons line rest ih =>
      rw [List.length_cons] at hindex
      have hnext : index + 1 + rest.length < wordLimit := by omega
      rw [decodeLines, Image.decodeLines, add_eq (by omega)]
      simp only [bind, Except.bind, pure, Except.pure]
      cases hcontent : Text.trimEnd line with
      | nil => exact ih hnext hbases hstop image
      | cons first more =>
          simp only [parse_eq]
          cases hparse : Record.parse (first :: more) with
          | error fault => rfl
          | ok record =>
              have hrecord : record.WellFormed := (Record.parse_eq_ok_iff.mp hparse).1
              cases hkind : record.kind with
              | data =>
                  have hroom : offset + (bases.locate record + record.data.length) < wordLimit :=
                    hbases.room hrecord hoffset
                  obtain ⟨habove, hbase⟩ := base_eq hroom
                  obtain ⟨behind?, hfurthest, hbehind⟩ :=
                    furthest_eq last? (Nat.lt_of_le_of_lt (Nat.le_add_left _ offset) hroom)
                  simp only [hkind, habove, hbase, store_eq hroom, hfurthest]
                  cases image.store (offset + bases.locate record) record.data with
                  | mk after outside? =>
                      cases outside? with
                      | some outside => rfl
                      | none =>
                          rw [← hbehind]
                          exact ih hnext hbases (hbehind ▸ hbases.extendedEnd_le hrecord hstop) after
              | endOfFile =>
                  simp only [hkind]
                  exact ih hnext hbases hstop image
              | segmentAddress =>
                  obtain ⟨value, hvalue⟩ := exists_addressValue? hrecord (by rw [hkind]; rfl)
                  simp only [hkind, hvalue, expect]
                  exact ih hnext (hbases.setSegment value) hstop image
              | linearAddress =>
                  obtain ⟨value, hvalue⟩ := exists_addressValue? hrecord (by rw [hkind]; rfl)
                  simp only [hkind, hvalue, expect]
                  exact ih hnext (hbases.setLinear value) hstop image
              | other code =>
                  simp only [hkind, ih hnext hbases hstop image]

/-! ## Texts -/

/-- Every byte of a text has an index. -/
def Indexed (text : String) : Prop := size text.toList < wordLimit

instance (text : String) : Decidable (Indexed text) := inferInstanceAs (Decidable (_ < _))

/-- So every line has a number. -/
theorem Indexed.length_lines_lt (h : Indexed text) :
    (Text.lines text.toList).length < wordLimit := by
  calc (Text.lines text.toList).length
    _ ≤ text.toList.length := Text.length_lines_le text.toList
    _ ≤ size text.toList := length_le_size text.toList
    _ < wordLimit := h

/-- Decoding a text meets no hazard. -/
theorem decode_eq (htext : Indexed text) (hoffset : offset ≤ greatestOffset) (image : Image) :
    decode image text offset = .ok (image.decode text offset) :=
  decodeLines_eq hoffset (by rw [Nat.zero_add]; exact htext.length_lines_lt) bounded_start
    (Nat.zero_le _) image

/-- No decoded text ends behind the greatest address. -/
theorem stop_le_of_decode {stop : Nat} (h : (image.decode text offset).result = .ok stop) :
    stop ≤ greatestAddress + 1 := by
  obtain ⟨-, -, rfl⟩ := Image.decode_eq_ok_iff.mp h
  exact Write.stop_le fun write hmem => Nat.lt_succ_of_le (address_le_of_mem_writesOfText hmem)

theorem load_eq {read : Files.Reader} {path : String}
    (htexts : ∀ text, read path = .ok text → Indexed text) (hoffset : offset ≤ greatestOffset)
    (image : Image) : load image read path offset = .ok (image.load read path offset) := by
  unfold load Image.load
  cases hread : read path with
  | error fault => rfl
  | ok text => exact decode_eq (htexts text hread) hoffset image

end IspStream.Guarded
