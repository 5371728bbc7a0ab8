import IspStream.Proofs.Decoding.Placement
import Mathlib.Data.Nat.Find

/-!
# Failed decoding

Decoding writes into the image as it goes, so a failure leaves something behind.  It fails
at the first line that is refused or that has a byte without a cell.  Whether a line is
one of these (`Stopping`) is said of the line and the records in front of it alone, with
the stateless reading of addresses, and so are the bytes of the line that are still
written.

`decode_fails_iff` says that decoding fails with an error, and leaves an image behind,
exactly as the first of these lines says.  Nothing there depends on the cells but on their
number, and writing the same bytes twice is writing them once.  So the same text fails in
the same way again and then changes nothing.
-/

namespace IspStream

namespace Image

variable {image : Image} {offset address : Nat} {writes : List Write}

/-! ## Writes that find no cell, and writes made twice -/

theorem set_of_le (byte : UInt8) (h : image.capacity ≤ address) : image.set address byte = image := by
  refine ext_get? fun cell => ?_
  rw [get?_set]
  by_cases hcell : address = cell
  · rw [if_pos hcell, if_neg (Nat.not_lt.mpr h), ← hcell, get?_eq_none_iff.mpr h]
  · rw [if_neg hcell]

/-- Only writes that find a cell count. -/
theorem apply_filter (image : Image) (offset : Nat) (writes : List Write) :
    image.apply offset (writes.filter fun write => decide (offset + write.address < image.capacity))
      = image.apply offset writes := by
  induction writes generalizing image with
  | nil => rfl
  | cons write rest ih =>
      by_cases hcell : offset + write.address < image.capacity
      · rw [List.filter_cons_of_pos (by simpa using hcell)]
        have hrest := ih (image.set (offset + write.address) write.byte)
        rw [capacity_set] at hrest
        exact hrest
      · rw [List.filter_cons_of_neg (by simpa using hcell), ih]
        change _ = (image.set (offset + write.address) write.byte).apply offset rest
        rw [set_of_le _ (Nat.le_of_not_lt hcell)]

theorem apply_apply (image : Image) (offset : Nat) (writes : List Write) :
    (image.apply offset writes).apply offset writes = image.apply offset writes := by
  refine ext_get? fun cell => ?_
  rw [get?_apply, capacity_apply, get?_apply]
  split
  · cases Write.last? writes (cell - offset) <;> rfl
  · rfl

end Image

namespace Record

/-! ## Where decoding stops -/

/-- The bytes of a data record with their relative addresses. -/
def ownPlacements (earlier : List Record) (record : Record) : List Write :=
  record.data.mapIdx fun index byte => ⟨addressBehind earlier record + index, byte⟩

/-- A numbered line with certain records in front of it cannot be decoded into an image of
a certain capacity: the error, and the bytes of the line that are written nevertheless. -/
inductive Stopping (capacity offset number : Nat) (earlier : List Record) (line : List Char) :
    Error → List Write → Prop where
  /-- The line is no record. -/
  | refused {fault : Fault} (content : Text.trimEnd line ≠ [])
      (refused : parse (Text.trimEnd line) = .error fault) :
      Stopping capacity offset number earlier line (.record fault number) []
  /-- A byte of the record has no cell. -/
  | outside {record : Record} {index : Nat} (accepted : parse (Text.trimEnd line) = .ok record)
      (data : record.kind = .data) (byte : index < record.data.length)
      (beyond : capacity ≤ offset + addressBehind earlier record + index) :
      Stopping capacity offset number earlier line
        (.capacity (max (offset + addressBehind earlier record) capacity) capacity number)
        ((ownPlacements earlier record).filter fun write =>
          decide (offset + write.address < capacity))

/-- The line with an index among lines cannot be decoded. -/
def StopsIn (capacity offset : Nat) (lines : List (List Char)) (index : Nat) (error : Error)
    (writes : List Write) : Prop :=
  ∃ line, lines[index]? = some line ∧
    Stopping capacity offset (index + 1) (ofLines (lines.take index)) line error writes

/-- The line with an index is the first one that cannot be decoded. -/
structure FirstStop (capacity offset : Nat) (lines : List (List Char)) (index : Nat)
    (error : Error) (writes : List Write) : Prop where
  stops : StopsIn capacity offset lines index error writes
  first : ∀ previous < index, ∀ error writes, ¬StopsIn capacity offset lines previous error writes

variable {capacity offset number index : Nat} {earlier : List Record} {line : List Char}
  {lines : List (List Char)} {error : Error} {writes : List Write} {record : Record}
  {image : Image}

/-! ## One line -/

theorem ofLine_of_parse (h : parse (Text.trimEnd line) = .ok record) :
    ofLine line = .ok (some record) := by
  unfold ofLine
  split
  · rename_i hempty
    rw [hempty] at h
    cases h
  · rw [h]
    rfl

theorem ofLine_of_refused {fault : Fault} (hcontent : Text.trimEnd line ≠ [])
    (h : parse (Text.trimEnd line) = .error fault) : ofLine line = .error fault := by
  unfold ofLine
  split
  · rename_i hempty
    exact absurd hempty hcontent
  · rw [h]
    rfl

theorem placements_singleton (earlier : List Record) (record : Record) :
    placements earlier [record] =
      if record.kind = .data then ownPlacements earlier record else [] :=
  List.append_nil _

theorem placements_append (earlier first second : List Record) :
    placements earlier (first ++ second) =
      placements earlier first ++ placements (earlier ++ first) second := by
  induction first generalizing earlier with
  | nil => rw [List.nil_append, List.append_nil, placements, List.nil_append]
  | cons record rest ih =>
      rw [List.cons_append, placements, ih, placements]
      simp only [List.append_assoc, List.singleton_append]

/-- A line that can be decoded is blank or holds a record whose bytes all find a cell. -/
theorem exists_fits_of_not_stopping (image : Image) (offset : Nat) (earlier : List Record)
    (h : ∀ error writes, ¬Stopping image.capacity offset number earlier line error writes) :
    ∃ record?, ofLine line = .ok record? ∧
      image.Fits offset (placements earlier record?.toList) := by
  by_cases hcontent : Text.trimEnd line = []
  · exact ⟨none, by rw [ofLine, hcontent], Image.fits_nil⟩
  cases hparse : parse (Text.trimEnd line) with
  | error fault => exact absurd (.refused hcontent hparse) (h _ _)
  | ok record =>
      refine ⟨some record, ofLine_of_parse hparse, ?_⟩
      rw [Option.toList_some, placements_singleton]
      split
      · rename_i hdata
        intro write hwrite
        obtain ⟨index, hindex, rfl⟩ := List.mem_mapIdx.mp hwrite
        by_contra hbeyond
        exact h _ _ (.outside hparse hdata hindex (by simp only at hbeyond; omega))
      · exact Image.fits_nil

/-- In the state behind the records in front of it, a line that cannot be decoded ends the
decoding. -/
theorem decodeLines_of_stopping (rest : List (List Char)) (stop : Nat)
    (h : Stopping image.capacity offset number earlier line error writes) :
    Image.decodeLines offset number (line :: rest) (basesBehind earlier) stop image =
      .stop (image.apply offset writes) (.error error) := by
  rw [Image.decodeLines_cons]
  cases h with
  | refused hcontent hrefused =>
      rw [ofLine_of_refused hcontent hrefused]
      rfl
  | @outside record index haccepted hdata hbyte hbeyond =>
      have hwrites : record.writes (basesBehind earlier) = ownPlacements earlier record := by
        rw [writes_basesBehind, if_pos hdata]
        rfl
      have hnot : ¬image.Fits offset (ownPlacements earlier record) := by
        intro hfits
        have hcell := hfits _ (List.mem_mapIdx.mpr ⟨index, hbyte, rfl⟩)
        simp only at hcell
        omega
      rw [ofLine_of_parse haccepted, Image.apply_filter]
      simp only [hwrites, if_neg hnot]
      rfl

/-! ## Many lines -/

theorem run_basesBehind (earlier : List Record) {records : List Record}
    (h : ∀ record ∈ records, record.kind.isAddress = true → record.data.length = 2) :
    (basesBehind earlier).run records = basesBehind (earlier ++ records) := by
  induction records generalizing earlier with
  | nil => rw [List.append_nil]; rfl
  | cons record rest ih =>
      rw [List.forall_mem_cons] at h
      calc (basesBehind earlier).run (record :: rest)
        _ = ((basesBehind earlier).step record).run rest := rfl
        _ = (basesBehind (earlier ++ [record])).run rest := by rw [step_basesBehind earlier h.1]
        _ = basesBehind (earlier ++ record :: rest) := by
            rw [ih _ h.2, List.append_assoc, List.singleton_append]

theorem basesBehind_nil : basesBehind [] = {} := rfl

theorem ofLines_append (first second : List (List Char)) :
    ofLines (first ++ second) = ofLines first ++ ofLines second :=
  List.filterMap_append

/-- Lines in front of the first one that cannot be decoded are decoded. -/
theorem accepted_of_not_stopsIn (hindex : index ≤ lines.length)
    (h : ∀ previous < index, ∀ error writes,
      ¬StopsIn image.capacity offset lines previous error writes) :
    Accepted (lines.take index) ∧
      image.Fits offset (placements [] (ofLines (lines.take index))) := by
  induction index with
  | zero => exact ⟨fun _ hline => absurd hline List.not_mem_nil, Image.fits_nil⟩
  | succ index ih =>
      obtain ⟨haccepted, hfits⟩ :=
        ih (Nat.le_of_succ_le hindex) fun previous hlt => h previous (Nat.lt_succ_of_lt hlt)
      obtain ⟨record?, hline, hroom⟩ := exists_fits_of_not_stopping image offset
        (ofLines (lines.take index)) fun error writes hstops =>
          h index (Nat.lt_succ_self index) error writes
            ⟨_, List.getElem?_eq_getElem hindex, hstops⟩
      have hlast : ofLines [lines[index]] = record?.toList := by
        rw [ofLines_cons, hline]
        exact List.append_nil _
      rw [← List.take_append_getElem hindex, ofLines_append, hlast, placements_append]
      refine ⟨?_, Image.fits_append.mpr ⟨hfits, hroom⟩⟩
      intro line hmem
      rcases List.mem_append.mp hmem with hbefore | hhere
      · exact haccepted line hbefore
      · exact ⟨record?, List.mem_singleton.mp hhere ▸ hline⟩

end Record

/-! ## A whole text -/

namespace Image

open Record

variable {image : Image} {offset index : Nat} {text : String} {error : Error}
  {writes : List Write}

/-- Behind lines that are decoded, decoding goes on in the state that the stateless reading
describes. -/
theorem decode_eq_drop (hindex : index ≤ (Text.lines text.toList).length)
    (haccepted : Accepted ((Text.lines text.toList).take index))
    (hfits : image.Fits offset (placements [] (ofLines ((Text.lines text.toList).take index)))) :
    ∃ stop notices, image.decode text offset =
      (decodeLines offset (index + 1) ((Text.lines text.toList).drop index)
        (basesBehind (ofLines ((Text.lines text.toList).take index))) stop
        (image.apply offset
          (placements [] (ofLines ((Text.lines text.toList).take index))))).after notices := by
  have hformed : ∀ record ∈ ofLines ((Text.lines text.toList).take index),
      record.kind.isAddress = true → record.data.length = 2 :=
    fun _ hrecord => (wellFormed_of_mem_ofLines hrecord).address_length
  have hbases := run_basesBehind [] hformed
  have hnumber : 1 + ((Text.lines text.toList).take index).length = index + 1 := by
    rw [List.length_take_of_le hindex, Nat.add_comm]
  rw [← writesOf_eq_placements [] hformed] at hfits ⊢
  rw [decode, ← basesBehind_nil]
  conv in decodeLines offset 1 _ _ _ _ =>
    rw [← List.take_append_drop index (Text.lines text.toList)]
  rw [decodeLines_append haccepted hfits, hnumber, hbases, List.nil_append]
  exact ⟨_, _, rfl⟩

theorem decode_of_firstStop
    (h : FirstStop image.capacity offset (Text.lines text.toList) index error writes) :
    ∃ notices, image.decode text offset =
      ⟨image.apply offset
          (placements [] (ofLines ((Text.lines text.toList).take index)) ++ writes),
        notices, .error error⟩ := by
  obtain ⟨line, hline, hstops⟩ := h.stops
  obtain ⟨hindex, rfl⟩ := List.getElem?_eq_some_iff.mp hline
  obtain ⟨haccepted, hfits⟩ := accepted_of_not_stopsIn (Nat.le_of_lt hindex) h.first
  obtain ⟨stop, notices, hdecode⟩ := decode_eq_drop (Nat.le_of_lt hindex) haccepted hfits
  rw [← capacity_apply image offset
    (placements [] (ofLines ((Text.lines text.toList).take index)))] at hstops
  rw [hdecode, List.drop_eq_getElem_cons hindex, decodeLines_of_stopping _ _ hstops, apply_append]
  exact ⟨_, rfl⟩

/-- Decoding that fails does so at a first line. -/
theorem exists_firstStop (h : (image.decode text offset).result = .error error) :
    ∃ index writes, FirstStop image.capacity offset (Text.lines text.toList) index error writes := by
  classical
  by_cases hstop : ∃ index error writes,
      StopsIn image.capacity offset (Text.lines text.toList) index error writes
  · obtain ⟨first, writes, hstops⟩ := Nat.find_spec hstop
    have hfirst : FirstStop image.capacity offset (Text.lines text.toList) (Nat.find hstop) first
        writes :=
      ⟨hstops, fun previous hlt other others hprevious =>
        Nat.find_min hstop hlt ⟨other, others, hprevious⟩⟩
    obtain ⟨_, hdecode⟩ := decode_of_firstStop hfirst
    rw [hdecode] at h
    cases h
    exact ⟨_, writes, hfirst⟩
  · -- without such a line the text would have been decoded
    obtain ⟨haccepted, hfits⟩ := accepted_of_not_stopsIn (Nat.le_refl _)
      fun index _ error writes hstops => hstop ⟨index, error, writes, hstops⟩
    rw [List.take_length] at haccepted hfits
    rw [decode_of_fits haccepted (writesOfText_eq_placementsOfText text ▸ hfits)] at h
    cases h

theorem capacity_decode (image : Image) (text : String) (offset : Nat) :
    (image.decode text offset).image.capacity = image.capacity := by
  cases hresult : (image.decode text offset).result with
  | ok final => exact capacity_decode_of_ok hresult
  | error error =>
      obtain ⟨index, writes, hfirst⟩ := exists_firstStop hresult
      obtain ⟨_, hdecode⟩ := decode_of_firstStop hfirst
      rw [hdecode, capacity_apply]

/-- **Every failure is that of the first line that cannot be decoded.**  The image then
holds what the lines before it write, and the bytes of that line which find a cell.  The
same text fails again with the same error, and that changes nothing more. -/
theorem decode_fails_iff (image : Image) (text : String) (offset : Nat) :
    (∀ error after, ((image.decode text offset).result = .error error ∧
        (image.decode text offset).image = after) ↔
      ∃ index writes,
        FirstStop image.capacity offset (Text.lines text.toList) index error writes ∧
        after = image.apply offset
          (placements [] (ofLines ((Text.lines text.toList).take index)) ++ writes)) ∧
    (image.decode text offset).image.capacity = image.capacity ∧
    ∀ error, (image.decode text offset).result = .error error →
      ((image.decode text offset).image.decode text offset).result = .error error ∧
      ((image.decode text offset).image.decode text offset).image =
        (image.decode text offset).image := by
  refine ⟨fun error after => ⟨?_, ?_⟩, capacity_decode image text offset, ?_⟩
  · rintro ⟨hresult, rfl⟩
    obtain ⟨index, writes, hfirst⟩ := exists_firstStop hresult
    obtain ⟨_, hdecode⟩ := decode_of_firstStop hfirst
    exact ⟨index, writes, hfirst, by rw [hdecode]⟩
  · rintro ⟨index, writes, hfirst, rfl⟩
    obtain ⟨_, hdecode⟩ := decode_of_firstStop hfirst
    rw [hdecode]
    exact ⟨rfl, rfl⟩
  · intro error hresult
    obtain ⟨index, writes, hfirst⟩ := exists_firstStop hresult
    obtain ⟨_, hdecode⟩ := decode_of_firstStop hfirst
    rw [hdecode]
    rw [← capacity_apply image offset
      (placements [] (ofLines ((Text.lines text.toList).take index)) ++ writes)] at hfirst
    obtain ⟨_, hagain⟩ := decode_of_firstStop hfirst
    rw [hagain]
    exact ⟨rfl, apply_apply ..⟩

-- two of the three bytes find a cell, and the line in front of the record is blank
example :
    let outcome := (Image.blank 8).decode " \n:03000600010203F1\n" 0
    outcome.result = .error (.capacity 8 8 2) ∧ outcome.image.slice 5 8 = [0xFF, 1, 2] := by
  decide +kernel

end Image

end IspStream
