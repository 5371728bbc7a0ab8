import IspStream.Proofs.Records.Damage

/-!
# The verdict on a line

The grammar of a record is a colon and the digits of its bytes, and a line that is no
record is refused by the first rule that it breaks.  `Judged` writes the rules down one by
one, each with what is known of a line that has passed the rules before it, and without
reading anything: that digits stand for bytes is said by writing the bytes (`Spells`).

`parse_eq_iff_judged` says that reading gives exactly this verdict.  For one half every
line needs a verdict (`exists_judged`): digits in pairs always stand for bytes, and within
the limits on their number there always is a length byte.  For the other half a line that
agrees with its length byte has to be within these limits (`ofDigits_of_counted`).
-/

namespace IspStream

namespace Text.Hex

/-! ## Digits and the bytes they spell -/

/-- The hexadecimal digits in either case. -/
def alphabet : List Char := "0123456789ABCDEFabcdef".toList

/-- The digits are those of the bytes, two for each and the high one first, in any mixture
of cases. -/
def Spells (digits : List Char) (values : List UInt8) : Prop :=
  digits.map Char.toUpper = bytes values

variable {digits : List Char} {values : List UInt8}

theorem isDigit_iff_mem_alphabet {character : Char} :
    isDigit character = true ↔ character ∈ alphabet := by
  have hascii : ∀ code < 0x80,
      (isDigit (Char.ofNat code) = true ↔ Char.ofNat code ∈ alphabet) := by
    decide +kernel
  have hletters : (alphabet.all fun letter => decide (letter.toNat < 0x80)) = true := by decide
  constructor
  · intro hdigit
    have hsmall := (toNat_of_isDigit hdigit).2
    have hcode := (hascii character.toNat (by omega)).mp
    rw [Char.ofNat_toNat] at hcode
    exact hcode hdigit
  · intro hmem
    have hsmall := of_decide_eq_true (List.all_eq_true.mp hletters character hmem)
    have hcode := (hascii character.toNat hsmall).mpr
    rw [Char.ofNat_toNat] at hcode
    exact hcode hmem

theorem all_isDigit_iff :
    digits.all isDigit = true ↔ ∀ character ∈ digits, character ∈ alphabet := by
  simp only [List.all_eq_true, isDigit_iff_mem_alphabet]

theorem spells_iff : Spells digits values ↔ bytes? digits = some values := by
  constructor
  · intro h
    rw [← bytes?_map_toUpper, h, bytes?_bytes]
  · intro h
    exact (bytes_of_bytes? h).symm

theorem Spells.length_eq (h : Spells digits values) : digits.length = 2 * values.length := by
  rw [← length_bytes, ← h, List.length_map]

theorem Spells.all_isDigit (h : Spells digits values) : digits.all isDigit = true :=
  List.all_eq_true.mpr fun _ hmem => isDigit_of_bytes? (spells_iff.mp h) hmem

/-- Digits in pairs always stand for bytes. -/
theorem exists_spells (hdigits : digits.all isDigit = true) (heven : digits.length % 2 = 0) :
    ∃ values, Spells digits values := by
  suffices ∃ values, bytes? digits = some values from this.imp fun _ => spells_iff.mpr
  induction digits using bytes?.induct with
  | case1 => exact ⟨[], rfl⟩
  | case2 character => cases heven
  | case3 high low rest ih =>
      simp only [List.all_cons, Bool.and_eq_true, isDigit, Option.isSome_iff_exists] at hdigits
      obtain ⟨⟨highValue, hhigh⟩, ⟨lowValue, hlow⟩, hrest⟩ := hdigits
      obtain ⟨others, hothers⟩ := ih hrest (by rw [List.length_cons, List.length_cons] at heven; omega)
      exact ⟨_, bytes?_cons_cons.mpr ⟨highValue, lowValue, others, hhigh, hlow, hothers, rfl⟩⟩

end Text.Hex

namespace Record

open Text.Hex (Spells)

/-! ## The rules -/

/-- What a type code names. -/
inductive Kind.Named : UInt8 → Kind → Prop where
  | data : Named 0 .data
  | endOfFile : Named 1 .endOfFile
  | segmentAddress : Named 2 .segmentAddress
  | linearAddress : Named 4 .linearAddress
  | other {code : UInt8} (unused : code ∉ ([0, 1, 2, 4] : List UInt8)) : Named code (.other code)

/-- The digits spell as many bytes as the length byte asks for. -/
structure Counted (digits : List Char) (length high low code : UInt8) (data : List UInt8)
    (last : UInt8) : Prop where
  spells : Spells digits (length :: high :: low :: code :: (data ++ [last]))
  count : data.length = length.toNat

/-- The verdict on a line: the first rule that it breaks, or the record that it is. -/
inductive Judged : List Char → Except Fault Record → Prop where
  | noStartCode {line : List Char} (start : ¬[':'] <+: line) :
      Judged line (.error .missingStartCode)
  | strayCharacter {digits : List Char} {character : Char} (among : character ∈ digits)
      (stray : character ∉ Text.Hex.alphabet) :
      Judged (':' :: digits) (.error .invalidCharacters)
  | few {digits : List Char} (hexadecimal : ∀ character ∈ digits, character ∈ Text.Hex.alphabet)
      (few : digits.length < 10) :
      Judged (':' :: digits) (.error .tooShort)
  | many {digits : List Char} (hexadecimal : ∀ character ∈ digits, character ∈ Text.Hex.alphabet)
      (many : 520 < digits.length) :
      Judged (':' :: digits) (.error .tooLong)
  | odd {digits : List Char} (hexadecimal : ∀ character ∈ digits, character ∈ Text.Hex.alphabet)
      (enough : 10 ≤ digits.length) (limit : digits.length ≤ 520)
      (odd : digits.length % 2 = 1) :
      Judged (':' :: digits) (.error .unevenLength)
  | miscounted {digits : List Char} {length : UInt8} {rest : List UInt8}
      (spells : Spells digits (length :: rest)) (enough : 10 ≤ digits.length)
      (limit : digits.length ≤ 520) (miscounted : (length :: rest).length ≠ length.toNat + 5) :
      Judged (':' :: digits) (.error .payloadLength)
  | unbalanced {digits : List Char} {length high low code last : UInt8} {data : List UInt8}
      (counted : Counted digits length high low code data last)
      (unbalanced : last ≠ -(length :: high :: low :: code :: data).sum) :
      Judged (':' :: digits)
        (.error (.checksumMismatch (-(length :: high :: low :: code :: data).sum) last))
  | misfit {digits : List Char} {length high low code last : UInt8} {data : List UInt8}
      (counted : Counted digits length high low code data last)
      (balanced : last = -(length :: high :: low :: code :: data).sum)
      (address : code = 2 ∨ code = 4) (misfit : length ≠ 2) :
      Judged (':' :: digits) (.error (.addressLength length.toNat))
  | record {digits : List Char} {length high low code last : UInt8} {data : List UInt8}
      {address : UInt16} {kind : Kind}
      (counted : Counted digits length high low code data last)
      (balanced : last = -(length :: high :: low :: code :: data).sum)
      (fits : code = 2 ∨ code = 4 → length = 2)
      (address_eq : address.toNat = 256 * high.toNat + low.toNat)
      (named : Kind.Named code kind) :
      Judged (':' :: digits) (.ok ⟨address, kind, data⟩)

variable {line digits : List Char} {answer : Except Fault Record} {record : Record}
  {length high low code last : UInt8} {data values : List UInt8}

/-! ## Bytes -/

theorem Kind.named_iff {kind : Kind} : Kind.Named code kind ↔ kind = Kind.ofCode code := by
  constructor
  · rintro (_ | _ | _ | _ | hunused)
    · rfl
    · rfl
    · rfl
    · rfl
    · simp only [List.mem_cons, List.not_mem_nil, or_false, not_or] at hunused
      obtain ⟨hdata, hend, hsegment, hlinear⟩ := hunused
      rw [ofCode, if_neg hdata, if_neg hend, if_neg hsegment, if_neg hlinear]
  · rintro rfl
    unfold ofCode
    split
    · rename_i hcode
      exact hcode ▸ .data
    · split
      · rename_i hcode
        exact hcode ▸ .endOfFile
      · split
        · rename_i hcode
          exact hcode ▸ .segmentAddress
        · split
          · rename_i hcode
            exact hcode ▸ .linearAddress
          · exact .other (by simp_all)

/-- Three bytes behind the length byte are enough for the rest of a header. -/
theorem exists_header : ∀ {values : List UInt8}, 3 ≤ values.length →
    ∃ high low code rest, values = high :: low :: code :: rest
  | high :: low :: code :: rest, _ => ⟨high, low, code, rest, rfl⟩

/-- As many bytes as the length byte asks for are a header, a payload and a checksum. -/
theorem exists_parts (h : values.length = length.toNat + 4) :
    ∃ high low code data last, values = high :: low :: code :: (data ++ [last]) ∧
      data.length = length.toNat := by
  obtain ⟨high, low, code, rest, rfl⟩ := exists_header (show 3 ≤ values.length by omega)
  rcases List.eq_nil_or_concat rest with rfl | ⟨data, last, rfl⟩
  · simp at h
  · refine ⟨high, low, code, data, last, by rw [List.concat_eq_append], ?_⟩
    simp only [List.concat_eq_append, List.length_cons, List.length_append, List.length_nil] at h
    omega

/-- The rules for bytes that have a header and a checksum. -/
theorem ofBytes_parts (length high low code last : UInt8) (data : List UInt8) :
    ofBytes (length :: high :: low :: code :: (data ++ [last])) =
      if data.length + 5 ≠ length.toNat + 5 then .error .payloadLength
      else if IspStream.checksum (length :: high :: low :: code :: data) ≠ last then
        .error (.checksumMismatch (IspStream.checksum (length :: high :: low :: code :: data)) last)
      else if (Kind.ofCode code).isAddress ∧ length ≠ 2 then .error (.addressLength length.toNat)
      else .ok ⟨UInt16.ofNat (ofBigEndian [high, low]), Kind.ofCode code, data⟩ := by
  have hsize : (length :: high :: low :: code :: (data ++ [last])).length = data.length + 5 := by
    simp only [List.length_cons, List.length_append, List.length_nil]
  have hsplit : length :: high :: low :: code :: (data ++ [last]) =
      (length :: high :: low :: code :: data) ++ [last] := rfl
  rw [ofBytes, hsize, List.dropLast_concat, hsplit, List.dropLast_concat, List.getLastD_concat]

/-- The last three rules, for bytes that agree with their length byte. -/
theorem ofBytes_counted (hcount : data.length = length.toNat) :
    ofBytes (length :: high :: low :: code :: (data ++ [last])) =
      if last ≠ -(length :: high :: low :: code :: data).sum then
        .error (.checksumMismatch (-(length :: high :: low :: code :: data).sum) last)
      else if (code = 2 ∨ code = 4) ∧ length ≠ 2 then .error (.addressLength length.toNat)
      else .ok ⟨UInt16.ofNat (ofBigEndian [high, low]), Kind.ofCode code, data⟩ := by
  have hsum : IspStream.checksum (length :: high :: low :: code :: data) =
      -(length :: high :: low :: code :: data).sum := rfl
  rw [ofBytes_parts, hcount, if_neg (not_not_intro rfl), hsum]
  simp only [Kind.isAddress_ofCode, ne_eq, eq_comm (a := last)]

/-! ## The digits -/

theorem ofDigits_of_spells (hspells : Spells digits values) (henough : 10 ≤ digits.length)
    (hlimit : digits.length ≤ 520) : ofDigits digits = ofBytes values := by
  have hlength := hspells.length_eq
  unfold ofDigits minimumDigits maximumDigits
  rw [hspells.all_isDigit, if_neg (by decide), if_neg (by omega), if_neg (by omega),
    if_neg (by omega), Text.Hex.spells_iff.mp hspells]

/-- Bytes that agree with their length byte are within the limits. -/
theorem ofDigits_of_counted (h : Counted digits length high low code data last) :
    ofDigits digits = ofBytes (length :: high :: low :: code :: (data ++ [last])) := by
  have hbyte := length.toNat_lt
  have hlength := h.spells.length_eq
  have hcount := h.count
  simp only [List.length_cons, List.length_append, List.length_nil] at hlength
  exact ofDigits_of_spells h.spells (by omega) (by omega)

theorem ofDigits_of_forall (h : ∀ character ∈ digits, character ∈ Text.Hex.alphabet) :
    ofDigits digits =
      if digits.length < 10 then .error .tooShort
      else if 520 < digits.length then .error .tooLong
      else if digits.length % 2 ≠ 0 then .error .unevenLength
      else
        match Text.Hex.bytes? digits with
        | some values => ofBytes values
        | none => .error .invalidCharacters := by
  rw [ofDigits, Text.Hex.all_isDigit_iff.mpr h, minimumDigits, maximumDigits]
  exact if_neg (by decide)

/-! ## Both halves -/

theorem parse_of_judged (h : Judged line answer) : parse line = answer := by
  cases h with
  | noStartCode hstart =>
      unfold parse
      split
      · exact absurd (List.prefix_append [':'] _) hstart
      · rfl
  | strayCharacter hamong hstray =>
      refine if_pos ?_
      rw [Bool.not_eq_true', Bool.eq_false_iff]
      intro hall
      exact hstray (Text.Hex.all_isDigit_iff.mp hall _ hamong)
  | few hhex hfew => exact (ofDigits_of_forall hhex).trans (if_pos hfew)
  | many hhex hmany =>
      rw [parse, ofDigits_of_forall hhex, if_neg (by omega), if_pos hmany]
  | odd hhex henough hlimit hodd =>
      rw [parse, ofDigits_of_forall hhex, if_neg (by omega), if_neg (by omega), if_pos (by omega)]
  | @miscounted digits length rest hspells henough hlimit hcount =>
      rw [parse, ofDigits_of_spells hspells henough hlimit]
      have hlength := hspells.length_eq
      rw [List.length_cons] at hlength
      obtain ⟨high, low, code, others, rfl⟩ := exists_header (show 3 ≤ rest.length by omega)
      exact if_pos hcount
  | unbalanced hcounted hunbalanced =>
      rw [parse, ofDigits_of_counted hcounted, ofBytes_counted hcounted.count, if_pos hunbalanced]
  | misfit hcounted hbalanced haddress hmisfit =>
      rw [parse, ofDigits_of_counted hcounted, ofBytes_counted hcounted.count,
        if_neg (not_not_intro hbalanced), if_pos ⟨haddress, hmisfit⟩]
  | @record digits length high low code last data address kind hcounted hbalanced hfits haddress
      hnamed =>
      have hvalue : UInt16.ofNat (ofBigEndian [high, low]) = address := by
        have hbytes : ofBigEndian [high, low] = address.toNat := by
          rw [haddress]
          simp [ofBigEndian]
        rw [hbytes, UInt16.ofNat_toNat]
      rw [parse, ofDigits_of_counted hcounted, ofBytes_counted hcounted.count,
        if_neg (not_not_intro hbalanced), if_neg fun h => h.2 (hfits h.1), hvalue,
        Kind.named_iff.mp hnamed]

/-- The verdict on digits that agree with their length byte. -/
theorem judged_of_counted (h : Counted digits length high low code data last) :
    ∃ answer, Judged (':' :: digits) answer := by
  by_cases hbalanced : last = -(length :: high :: low :: code :: data).sum
  · by_cases hmisfit : (code = 2 ∨ code = 4) ∧ length ≠ 2
    · exact ⟨_, .misfit h hbalanced hmisfit.1 hmisfit.2⟩
    · have haddress : (UInt16.ofNat (256 * high.toNat + low.toNat)).toNat =
          256 * high.toNat + low.toNat := by
        have := high.toNat_lt
        have := low.toNat_lt
        rw [UInt16.toNat_ofNat', Nat.mod_eq_of_lt (by omega)]
      refine ⟨_, .record h hbalanced (fun hcode => ?_) haddress (Kind.named_iff.mpr rfl)⟩
      exact Classical.not_not.mp fun hlength => hmisfit ⟨hcode, hlength⟩
  · exact ⟨_, .unbalanced h hbalanced⟩

/-- Every line has a verdict. -/
theorem exists_judged (line : List Char) : ∃ answer, Judged line answer := by
  by_cases hstart : [':'] <+: line
  · obtain ⟨digits, rfl⟩ := hstart
    by_cases hhex : ∀ character ∈ digits, character ∈ Text.Hex.alphabet
    · rcases Nat.lt_or_ge digits.length 10 with hfew | henough
      · exact ⟨_, .few hhex hfew⟩
      rcases Nat.lt_or_ge 520 digits.length with hmany | hlimit
      · exact ⟨_, .many hhex hmany⟩
      rcases Nat.mod_two_eq_zero_or_one digits.length with heven | hodd
      · obtain ⟨values, hspells⟩ :=
          Text.Hex.exists_spells (Text.Hex.all_isDigit_iff.mpr hhex) heven
        have hlength := hspells.length_eq
        cases values with
        | nil => exact absurd henough (by rw [hlength]; decide)
        | cons length rest =>
            by_cases hcount : (length :: rest).length = length.toNat + 5
            · obtain ⟨high, low, code, data, last, rfl, hdata⟩ :=
                exists_parts (Nat.succ.inj hcount)
              exact judged_of_counted ⟨hspells, hdata⟩
            · exact ⟨_, .miscounted hspells henough hlimit hcount⟩
      · exact ⟨_, .odd hhex henough hlimit hodd⟩
    · obtain ⟨character, hamong, hstray⟩ : ∃ character ∈ digits, character ∉ Text.Hex.alphabet := by
        simpa using hhex
      exact ⟨_, .strayCharacter hamong hstray⟩
  · exact ⟨_, .noStartCode hstart⟩

/-- The bytes of an accepted line are those of its record, and they sum to zero. -/
theorem spells_of_parse (h : parse line = .ok record) :
    ∃ digits, line = ':' :: digits ∧ Spells digits record.bytes ∧ record.bytes.sum = 0 := by
  obtain ⟨-, digits, hline, hdigits⟩ := exists_digits_of_parse h
  exact ⟨digits, hline, Text.Hex.spells_iff.mpr hdigits, sum_bytes record⟩

/-- The length byte and the checksum of an accepted line are those that its record gives, so
that there is no need for a record to keep them. -/
theorem ends_of_parse (hspells : Spells digits values) (h : parse (':' :: digits) = .ok record) :
    record.data.length ≤ 255 ∧ values.head? = some (UInt8.ofNat record.data.length) ∧
      values.getLast? = some record.checksum := by
  obtain ⟨hformed, _, hline, hbytes⟩ := exists_digits_of_parse h
  obtain ⟨-, rfl⟩ := List.cons.inj hline
  rw [Text.Hex.spells_iff.mp hspells] at hbytes
  obtain rfl := Option.some.inj hbytes
  refine ⟨hformed.length_le, rfl, ?_⟩
  rw [bytes, List.getLast?_concat]

/-- There are too few bytes only where there are too few digits: as soon as there is a length
byte with a header and a checksum, it is asked whether they agree. -/
theorem ofBytes_ne_tooShort (h : 5 ≤ values.length) : ofBytes values ≠ .error .tooShort := by
  obtain ⟨length, rest, rfl⟩ := List.exists_cons_of_length_pos (show 0 < values.length by omega)
  rw [List.length_cons] at h
  obtain ⟨high, low, code, others, rfl⟩ := exists_header (show 3 ≤ rest.length by omega)
  intro hshort
  rw [ofBytes] at hshort
  split at hshort
  · cases hshort
  · simp only at hshort
    split at hshort
    · cases hshort
    · split at hshort <;> cases hshort

theorem parse_eq_tooShort_iff :
    parse line = .error .tooShort ↔
      ∃ digits, line = ':' :: digits ∧ (∀ character ∈ digits, character ∈ Text.Hex.alphabet) ∧
        digits.length < 10 := by
  constructor
  · intro h
    obtain ⟨answer, hjudged⟩ := exists_judged line
    rw [parse_of_judged hjudged] at h
    subst h
    cases hjudged with
    | few hhex hfew => exact ⟨_, rfl, hhex, hfew⟩
  · rintro ⟨digits, rfl, hhex, hfew⟩
    exact parse_of_judged (.few hhex hfew)

/-- **Reading gives the verdict of the grammar.**  A line is refused by the first rule that
it breaks, or it breaks none and is the record that its bytes say.  These bytes, which sum
to zero, are the length byte, the address, the type code, the payload and the checksum. -/
theorem parse_eq_iff_judged (line : List Char) :
    (∀ answer, parse line = answer ↔ Judged line answer) ∧
    ∀ record, parse line = .ok record → ∃ digits values,
      line = ':' :: digits ∧ Spells digits values ∧ values.sum = 0 ∧
        values = UInt8.ofNat record.data.length :: bigEndian 2 record.address.toNat ++
          record.kind.code :: record.data ++ [record.checksum] := by
  refine ⟨fun answer => ⟨?_, parse_of_judged⟩, ?_⟩
  · rintro rfl
    obtain ⟨answer, hjudged⟩ := exists_judged line
    rwa [parse_of_judged hjudged]
  · intro record hparse
    obtain ⟨digits, hline, hspells, hsum⟩ := spells_of_parse hparse
    exact ⟨digits, record.bytes, hline, hspells, hsum, rfl⟩

-- an address record of three bytes with a wrong checksum breaks two rules
example : parse ":0300000401020300".toList = .error (.checksumMismatch 0xF3 0) := by
  decide +kernel

example : parse ":03000004010203F3".toList = .error (.addressLength 3) := by
  decide +kernel

end Record

end IspStream
