import IspStream.Proofs.Decoding.Failure
import IspStream.Proofs.Text.Words

/-!
# Lines that decode alike

The same hex data can be written in many ways.  A line may have other white space at its end and
letters of either case in its hex digits (`Respelled`), some lines leave no trace in the image
(`Idle`), and other data records may carry the payload of one piece by piece (`Carries`).

In the same state, two such groups of lines are `Alike`: either both are passed, with the same
writes and the same bases behind them (`SameEffect`), or both end the decoding with the same
image and, apart from the number of the line, the same error (`Fails`).

The only case with work in it is a data record that runs into the end of the image.  Of its
pieces, those in front of the end are written, and the first one that is not written as a whole
names the same cell as the whole record does (`Carries.fails`).
-/

namespace IspStream

/-- The same error in another line. -/
def Error.atLine (number : Nat) : Error → Error
  | .record fault _ => .record fault number
  | .script fault _ => .script fault number
  | .capacity address size _ => .capacity address size number
  | .file path fault => .file path fault

theorem Error.line?_atLine {error : Error} (h : error.line?.isSome = true) (number : Nat) :
    (error.atLine number).line? = some number := by
  cases error with
  | record | script | capacity => rfl
  | file path fault => cases h

@[simp] theorem Error.atLine_atLine (error : Error) (first second : Nat) :
    (error.atLine first).atLine second = error.atLine second := by
  cases error <;> rfl

namespace Text

/-- The same character, or the same hex digit in another case. -/
def Hex.SameDigit (old new : Char) : Prop :=
  new = old ∨ isDigit old = true ∧ (new = old.toLower ∨ new = old.toUpper)

instance (old new : Char) : Decidable (Hex.SameDigit old new) :=
  inferInstanceAs (Decidable (_ ∨ _))

theorem Hex.SameDigit.toUpper_eq {old new : Char} (h : SameDigit old new) :
    new.toUpper = old.toUpper := by
  obtain rfl | ⟨-, rfl | rfl⟩ := h
  · rfl
  · exact toUpper_toLower old
  · exact toUpper_toUpper old

theorem Hex.map_toUpper_eq {old new : List Char} (h : List.Forall₂ SameDigit old new) :
    new.map Char.toUpper = old.map Char.toUpper := by
  induction h with
  | nil => rfl
  | cons hfirst _ ih => rw [List.map_cons, List.map_cons, hfirst.toUpper_eq, ih]

theorem trimEnd_map_toUpper (text : List Char) :
    trimEnd (text.map Char.toUpper) = (trimEnd text).map Char.toUpper := by
  have hblank : isBlank ∘ Char.toUpper = isBlank := funext isBlank_toUpper
  rw [trimEnd, ← List.map_reverse, List.dropWhile_map, hblank, ← List.map_reverse, trimEnd]

end Text

namespace Record

/-- The same line, apart from white space at its end and the case of its hex digits. -/
inductive Respelled : List Char → List Char → Prop where
  /-- What stands in front of the white space is the same in any mixture of cases. -/
  | mk {content other blanks more : List Char}
      (same : List.Forall₂ Text.Hex.SameDigit content other) (old_blank : Text.Blank blanks)
      (new_blank : Text.Blank more) : Respelled (content ++ blanks) (other ++ more)

/-- A line that leaves no trace in the image. -/
inductive Idle (line : List Char) : Prop where
  /-- There is only white space. -/
  | blank (blank : Text.Blank line)
  /-- The line is an accepted mark at the end of a file. -/
  | endOfFile {record : Record} (accepted : parse (Text.trimEnd line) = .ok record)
      (kind : record.kind = .endOfFile)
  /-- The line is an accepted record of a kind that is not interpreted. -/
  | other {record : Record} {code : UInt8} (accepted : parse (Text.trimEnd line) = .ok record)
      (kind : record.kind = .other code)

/-- The lines are accepted data records, and carry pieces of the bytes one after the other, each
at the address where its first byte belongs. -/
inductive Carries : Nat → List UInt8 → List (List Char) → Prop where
  /-- All bytes are carried. -/
  | nil (address : Nat) : Carries address [] []
  /-- The first line carries the first piece, and if this is empty its address does not matter. -/
  | cons {address : Nat} {field : UInt16} {piece data : List UInt8} {line : List Char}
      {rest : List (List Char)} (accepted : parse (Text.trimEnd line) = .ok ⟨field, .data, piece⟩)
      (place : piece ≠ [] → field.toNat = address)
      (carries : Carries (address + piece.length) data rest) :
      Carries address (piece ++ data) (line :: rest)

variable {line other : List Char} {lines old new : List (List Char)} {record : Record}
  {bases : Bases} {image after : Image} {error : Error} {offset address index : Nat}
  {data : List UInt8}

/-! ## Lines that say the same -/

theorem ofLine_congr
    (h : (Text.trimEnd line).map Char.toUpper = (Text.trimEnd other).map Char.toUpper) :
    ofLine line = ofLine other := by
  have hparse : parse (Text.trimEnd line) = parse (Text.trimEnd other) := by
    rw [← parse_map_toUpper, h, parse_map_toUpper]
  cases hline : Text.trimEnd line with
  | nil =>
      rw [hline] at h
      rw [ofLine, ofLine, hline, List.map_eq_nil_iff.mp h.symm]
  | cons first rest =>
      cases hother : Text.trimEnd other with
      | nil =>
          rw [hother, hline] at h
          cases h
      | cons second more =>
          rw [hline, hother] at hparse
          rw [ofLine, ofLine, hline, hother]
          simp only [hparse]

theorem ofLine_append (line : List Char) {blanks : List Char} (h : Text.Blank blanks) :
    ofLine (line ++ blanks) = ofLine line :=
  ofLine_congr (by rw [Text.trimEnd_append line h])

/-- A line says the same however it is spelled. -/
theorem Respelled.ofLine_eq (h : Respelled line other) : ofLine line = ofLine other := by
  obtain ⟨same, old_blank, new_blank⟩ := h
  rw [ofLine_append _ old_blank, ofLine_append _ new_blank]
  apply ofLine_congr
  rw [← Text.trimEnd_map_toUpper, ← Text.trimEnd_map_toUpper, Text.Hex.map_toUpper_eq same]

/-- A line is a spelling of itself. -/
theorem Respelled.refl (line : List Char) : Respelled line line := by
  have hsame : List.Forall₂ Text.Hex.SameDigit line line := by
    induction line with
    | nil => exact .nil
    | cons first rest ih => exact .cons (Or.inl rfl) ih
  have hblank : Text.Blank [] := by decide
  have hline := Respelled.mk hsame hblank hblank
  rwa [List.append_nil] at hline

/-! ## Lines that are passed -/

/-- Both groups of lines can be read, with the same writes and the same bases behind them. -/
structure SameEffect (bases : Bases) (old new : List (List Char)) : Prop where
  old_accepted : Accepted old
  new_accepted : Accepted new
  writes_eq : writesOf bases (ofLines old) = writesOf bases (ofLines new)
  run_eq : bases.run (ofLines old) = bases.run (ofLines new)

theorem SameEffect.symm (h : SameEffect bases old new) : SameEffect bases new old :=
  ⟨h.new_accepted, h.old_accepted, h.writes_eq.symm, h.run_eq.symm⟩

theorem accepted_nil : Accepted [] := fun _ hline => absurd hline List.not_mem_nil

theorem accepted_cons {record? : Option Record} (hline : ofLine line = .ok record?)
    (h : Accepted lines) : Accepted (line :: lines) :=
  List.forall_mem_cons.mpr ⟨⟨record?, hline⟩, h⟩

theorem sameEffect_of_ofLine_eq {record? : Option Record} (hline : ofLine line = .ok record?)
    (h : ofLine line = ofLine other) : SameEffect bases [line] [other] := by
  have hrecords : ofLines [line] = ofLines [other] := by rw [ofLines_cons, ofLines_cons, h]
  refine ⟨accepted_cons hline accepted_nil, accepted_cons (h.symm.trans hline) accepted_nil, ?_, ?_⟩
  · rw [hrecords]
  · rw [hrecords]

theorem ofLines_cons_of_parse (h : parse (Text.trimEnd line) = .ok record)
    (rest : List (List Char)) : ofLines (line :: rest) = record :: ofLines rest := by
  rw [ofLines_cons, ofLine_of_parse h]
  rfl

theorem sameEffect_insert (h : parse (Text.trimEnd line) = .ok record)
    (hdata : record.kind ≠ .data) (haddress : record.kind.isAddress = false) :
    SameEffect bases [] [line] := by
  have hrecords : ofLines [line] = [record] := ofLines_cons_of_parse h []
  refine ⟨accepted_nil, accepted_cons (ofLine_of_parse h) accepted_nil, ?_, ?_⟩
  · rw [hrecords, writesOf, writes]
    split
    · contradiction
    · rfl
  · rw [hrecords]
    exact (bases.step_of_not_isAddress haddress).symm

/-- A line that leaves no trace is passed as if it was not there. -/
theorem Idle.sameEffect (h : Idle line) (bases : Bases) : SameEffect bases [] [line] := by
  cases h with
  | blank hblank =>
      have hline : ofLine line = .ok none := ofLine_append [] hblank
      have hrecords : ofLines [line] = [] := by
        rw [ofLines_cons, hline]
        rfl
      refine ⟨accepted_nil, accepted_cons hline accepted_nil, ?_, ?_⟩
      · rw [hrecords]
        rfl
      · rw [hrecords]
        rfl
  | endOfFile haccepted hkind =>
      exact sameEffect_insert haccepted (by simp [hkind]) (by rw [hkind]; rfl)
  | other haccepted hkind =>
      exact sameEffect_insert haccepted (by simp [hkind]) (by rw [hkind]; rfl)

/-! ## Data records in pieces -/

theorem Carries.accepted (h : Carries address data lines) : Accepted lines := by
  induction h with
  | nil address => exact accepted_nil
  | cons accepted _ _ ih => exact accepted_cons (ofLine_of_parse accepted) ih

theorem Carries.isAddress_eq_false (h : Carries address data lines) :
    ∀ record ∈ ofLines lines, record.kind.isAddress = false := by
  induction h with
  | nil address => exact fun _ hrecord => absurd hrecord List.not_mem_nil
  | cons accepted _ _ ih =>
      rw [ofLines_cons_of_parse accepted, List.forall_mem_cons]
      exact ⟨rfl, ih⟩

/-- A piece is written where its first byte belongs. -/
theorem writes_piece {field : UInt16} {piece : List UInt8} (bases : Bases)
    (h : piece ≠ [] → field.toNat = address) :
    writes bases ⟨field, .data, piece⟩ =
      Write.consecutive (address + bases.linear + bases.segment) piece := by
  cases piece with
  | nil => rfl
  | cons byte rest =>
      rw [← h (List.cons_ne_nil byte rest)]
      rfl

theorem Carries.writesOf_eq (h : Carries address data lines) (bases : Bases) :
    writesOf bases (ofLines lines) =
      Write.consecutive (address + bases.linear + bases.segment) data := by
  induction h with
  | nil address => rfl
  | @cons address field piece data line rest accepted place carries ih =>
      have hnext : address + piece.length + bases.linear + bases.segment =
          address + bases.linear + bases.segment + piece.length := by omega
      rw [ofLines_cons_of_parse accepted, writesOf, bases.step_of_not_isAddress rfl, ih,
        writes_piece bases place, Write.consecutive_append, hnext]

theorem Carries.sameEffect (h : Carries record.address.toNat record.data lines)
    (haccepted : parse (Text.trimEnd line) = .ok record) (hdata : record.kind = .data)
    (bases : Bases) : SameEffect bases [line] lines := by
  have hrecords : ofLines [line] = [record] := ofLines_cons_of_parse haccepted []
  have haddress : record.kind.isAddress = false := by rw [hdata]; rfl
  refine ⟨accepted_cons (ofLine_of_parse haccepted) accepted_nil, h.accepted, ?_, ?_⟩
  · rw [hrecords, h.writesOf_eq, writesOf, writesOf, List.append_nil, writes, hdata]
    rfl
  · rw [hrecords, bases.run_of_not_isAddress h.isAddress_eq_false]
    exact bases.step_of_not_isAddress haddress

/-! ## Lines that end the decoding -/

/-- Lines end the decoding in the one with an index, whatever is behind them. -/
structure Fails (offset : Nat) (lines : List (List Char)) (bases : Bases) (image after : Image)
    (error : Error) (index : Nat) : Prop where
  inside : index < lines.length
  decode_eq : ∀ number rest stop,
    Image.decodeLines offset number (lines ++ rest) bases stop image =
      .stop after (.error (error.atLine (number + index)))

theorem Fails.append (h : Fails offset lines bases image after error index)
    (more : List (List Char)) : Fails offset (lines ++ more) bases image after error index where
  inside := by
    rw [List.length_append]
    exact Nat.lt_add_right _ h.inside
  decode_eq number rest stop := by rw [List.append_assoc, h.decode_eq]

theorem fails_of_refused {fault : Fault} (h : ofLine line = .error fault) (image : Image) :
    Fails offset [line] bases image image (.record fault 0) 0 where
  inside := Nat.one_pos
  decode_eq number rest stop := by
    rw [List.singleton_append, Image.decodeLines_cons, h]
    rfl

theorem fails_of_not_fits (h : ofLine line = .ok (some record))
    (hfits : ¬image.Fits offset (record.writes bases)) :
    Fails offset [line] bases image (image.apply offset (record.writes bases))
      (.capacity (max (offset + bases.locate record) image.capacity) image.capacity 0) 0 where
  inside := Nat.one_pos
  decode_eq number rest stop := by
    rw [List.singleton_append, Image.decodeLines_cons, h]
    simp only [if_neg hfits]
    rfl

/-- A data record that is written does not keep the lines behind it from failing. -/
theorem Fails.cons (hline : ofLine line = .ok (some record)) (hdata : record.kind = .data)
    (hfits : image.Fits offset (record.writes bases))
    (h : Fails offset lines bases (image.apply offset (record.writes bases)) after error index) :
    Fails offset (line :: lines) bases image after error (index + 1) where
  inside := Nat.succ_lt_succ h.inside
  decode_eq number rest stop := by
    have hstep : bases.step record = bases :=
      bases.step_of_not_isAddress (by rw [hdata]; rfl)
    have hreports : record.reports number = [] := by
      rw [reports, hdata]
    rw [List.cons_append, Image.decodeLines_cons, hline]
    simp only [if_pos hfits]
    rw [hstep, hreports, h.decode_eq, Nat.add_right_comm, Nat.add_assoc]
    rfl

/-- Bytes behind the end of the image are not written. -/
theorem apply_consecutive_of_le (h : image.capacity ≤ offset + address) :
    image.apply offset (Write.consecutive address data) = image := by
  have hnone : (Write.consecutive address data).filter
      (fun write => decide (offset + write.address < image.capacity)) = [] := by
    rw [List.filter_eq_nil_iff]
    intro write hwrite
    obtain ⟨index, -, haddress⟩ := Write.mem_consecutive.mp hwrite
    rw [decide_eq_true_iff, haddress]
    omega
  rw [← Image.apply_filter, hnone]
  rfl

/-- Pieces that run into the end of the image fail as the whole record does.  A piece that is
not empty and has been written ends in front of the end of the image, so that the next one
starts there at the latest. -/
theorem Carries.fails (h : Carries address data lines) {start : Nat}
    (hstart : start = address + bases.linear + bases.segment)
    (hfits : ¬image.Fits offset (Write.consecutive start data)) :
    ∃ index, Fails offset lines bases image (image.apply offset (Write.consecutive start data))
      (.capacity (max (offset + start) image.capacity) image.capacity 0) index := by
  induction h generalizing image start with
  | nil address => exact absurd Image.fits_nil hfits
  | @cons address field piece data line rest accepted place carries ih =>
      have hline := ofLine_of_parse accepted
      have hwrites := writes_piece bases place
      rw [← hstart] at hwrites
      rw [Write.consecutive_append] at hfits ⊢
      rw [Image.apply_append]
      by_cases hpiece : image.Fits offset (Write.consecutive start piece)
      · -- the piece is written, and one behind it fails
        have hrest : ¬(image.apply offset (Write.consecutive start piece)).Fits offset
            (Write.consecutive (start + piece.length) data) := fun hrest =>
          hfits (Image.fits_append.mpr ⟨hpiece, Image.fits_apply.mp hrest⟩)
        have hnext : start + piece.length =
            address + piece.length + bases.linear + bases.segment := by omega
        obtain ⟨index, hindex⟩ := ih hnext hrest
        have hcell : max (offset + (start + piece.length)) image.capacity =
            max (offset + start) image.capacity := by
          rcases Image.fits_consecutive_iff.mp hpiece with rfl | hroom
          · rfl
          · omega
        rw [Image.capacity_apply, hcell, ← hwrites] at hindex
        rw [← hwrites] at hpiece ⊢
        exact ⟨index + 1, hindex.cons hline rfl hpiece⟩
      · -- the piece itself fails, and nothing behind it would be written
        obtain ⟨hne, hbeyond⟩ := not_or.mp (mt Image.fits_consecutive_iff.mpr hpiece)
        have hlocate : bases.locate ⟨field, .data, piece⟩ = start := by
          rw [hstart, ← place hne]
          rfl
        rw [apply_consecutive_of_le (by rw [Image.capacity_apply]; omega)]
        rw [← hwrites] at hpiece ⊢
        have hfails := fails_of_not_fits hline hpiece
        rw [hlocate] at hfails
        exact ⟨0, hfails.append rest⟩

/-! ## Groups of lines that do the same -/

/-- Both groups of lines do the same: they are passed, or they fail alike. -/
inductive Alike (offset : Nat) (old new : List (List Char)) (bases : Bases) (image : Image) :
    Prop where
  /-- The lines are passed. -/
  | pass (same : SameEffect bases old new)
      (fits : image.Fits offset (writesOf bases (ofLines old)))
  /-- The lines end the decoding, in the first group with its first line. -/
  | fail {after : Image} {error : Error} {index : Nat} (number : error.line?.isSome = true)
      (old_fails : Fails offset old bases image after error 0)
      (new_fails : Fails offset new bases image after error index)

theorem alike_of_ofLine_eq (h : ofLine line = ofLine other) (offset : Nat) (bases : Bases)
    (image : Image) : Alike offset [line] [other] bases image := by
  cases hline : ofLine line with
  | error fault =>
      exact .fail rfl (fails_of_refused hline image) (fails_of_refused (h.symm.trans hline) image)
  | ok record? =>
      by_cases hfits : image.Fits offset (writesOf bases (ofLines [line]))
      · exact .pass (sameEffect_of_ofLine_eq hline h) hfits
      · rw [ofLines_cons, hline] at hfits
        cases record? with
        | none => exact absurd Image.fits_nil hfits
        | some record =>
            have hwrites : ¬image.Fits offset (record.writes bases) := fun hrecord =>
              hfits (Image.fits_append.mpr ⟨hrecord, Image.fits_nil⟩)
            exact .fail rfl (fails_of_not_fits hline hwrites)
              (fails_of_not_fits (h.symm.trans hline) hwrites)

theorem Idle.alike_insert (h : Idle line) (offset : Nat) (bases : Bases) (image : Image) :
    Alike offset [] [line] bases image :=
  .pass (h.sameEffect bases) Image.fits_nil

theorem Idle.alike_remove (h : Idle line) (offset : Nat) (bases : Bases) (image : Image) :
    Alike offset [line] [] bases image := by
  have hsame := (h.sameEffect bases).symm
  refine .pass hsame ?_
  rw [hsame.writes_eq]
  exact Image.fits_nil

/-- A data record and its pieces are both written, or end at the same cell. -/
theorem Carries.alike (h : Carries record.address.toNat record.data lines)
    (haccepted : parse (Text.trimEnd line) = .ok record) (hdata : record.kind = .data)
    (offset : Nat) (bases : Bases) (image : Image) : Alike offset [line] lines bases image := by
  have hsame := h.sameEffect haccepted hdata bases
  have hwrites : record.writes bases = Write.consecutive (bases.locate record) record.data := by
    rw [writes, hdata]
  by_cases hfits : image.Fits offset (writesOf bases (ofLines [line]))
  · exact .pass hsame hfits
  · rw [hsame.writes_eq, h.writesOf_eq] at hfits
    obtain ⟨index, hpieces⟩ := h.fails rfl hfits
    have hwhole := fails_of_not_fits (ofLine_of_parse haccepted) (hwrites ▸ hfits)
    rw [hwrites] at hwhole
    exact .fail rfl hwhole hpieces

end Record

end IspStream
