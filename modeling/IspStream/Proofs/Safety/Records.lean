import IspStream.Proofs.Records.Grammar
import IspStream.Proofs.Safety.Operations

/-!
# Reading a record without a hazard

A line is cut at the offsets of its bytes, and the bytes of a record are taken by their
index.  The cuts rely on the rule that only digits stand behind the start code, since a
digit has one byte; that a pair of digits is a number relies on the same rule.  The indices
rely on the least number of digits, which leaves five bytes, and on nothing that the length
byte says.
-/

namespace IspStream.Guarded

variable {digits : List Char} {values : List UInt8} {line : List Char}

/-! ## Guarded reading -/

/-- The number of bytes of a text. -/
def size (text : List Char) : Nat := (text.map Char.utf8Size).sum

/-- A number without the plus sign that may come first. -/
def dropPlus : List Char → List Char
  | '+' :: digits => digits
  | digits => digits

/-- The byte that a text spells in base sixteen. -/
def octet? (text : List Char) : Option UInt8 :=
  (Text.Integer.magnitude? 16 (dropPlus text)).bind fun value =>
    if value < 256 then some (UInt8.ofNat value) else none

/-- The bytes of pairs of digits from an offset on. -/
def octets (digits : List Char) : Nat → Nat → Checked (List UInt8)
  | 0, _ => .ok []
  | count + 1, offset => do
    let stop ← add offset 2
    let pair ← part digits offset stop
    let byte ← expect (octet? pair)
    let rest ← octets digits count stop
    return byte :: rest

def ofBytes (bytes : List UInt8) : Checked (Except Record.Fault Record) := do
  let length ← index bytes 0
  let count ← add length.toNat 5
  if bytes.length ≠ count then return .error .payloadLength
  let split ← subtract bytes.length 1
  let body ← slice bytes 0 split
  let behind ← slice bytes split bytes.length
  let found ← index behind 0
  let expected := checksum body
  if expected ≠ found then return .error (.checksumMismatch expected found)
  let code ← index body 3
  let kind := Record.Kind.ofCode code
  if kind.isAddress ∧ length ≠ 2 then return .error (.addressLength length.toNat)
  let high ← index body 1
  let low ← index body 2
  let data ← slice body 4 body.length
  return .ok { address := UInt16.ofNat (ofBigEndian [high, low]), kind, data }

def ofDigits (digits : List Char) : Checked (Except Record.Fault Record) :=
  if !digits.all Text.Hex.isDigit then .ok (.error .invalidCharacters)
  else if size digits < Record.minimumDigits then .ok (.error .tooShort)
  else if Record.maximumDigits < size digits then .ok (.error .tooLong)
  else if size digits % 2 ≠ 0 then .ok (.error .unevenLength)
  else octets digits ((size digits + 1) / 2) 0 >>= ofBytes

def parse : List Char → Checked (Except Record.Fault Record)
  | ':' :: digits => ofDigits digits
  | _ => .ok (.error .missingStartCode)

/-! ## Digits -/

theorem utf8Size_of_ascii {character : Char} (h : character.toNat < 128) :
    character.utf8Size = 1 := by
  have hascii : character.val ≤ 0x7F := by
    rw [UInt32.le_iff_toNat_le]
    exact Nat.le_of_lt_succ h
  exact if_pos hascii

/-- A digit has one byte. -/
theorem utf8Size_of_isDigit {character : Char} (h : Text.Hex.isDigit character = true) :
    character.utf8Size = 1 :=
  utf8Size_of_ascii (Nat.lt_of_le_of_lt (Text.Hex.toNat_of_isDigit h).2 (by decide))

theorem size_cons (character : Char) (rest : List Char) :
    size (character :: rest) = character.utf8Size + size rest :=
  List.sum_cons

theorem length_le_size (text : List Char) : text.length ≤ size text := by
  induction text with
  | nil => exact Nat.le_refl 0
  | cons character rest ih =>
      have hpositive := character.utf8Size_pos
      rw [size_cons, List.length_cons]
      omega

theorem size_eq_length (h : ∀ character ∈ digits, character.utf8Size = 1) :
    size digits = digits.length := by
  induction digits with
  | nil => rfl
  | cons character rest ih =>
      obtain ⟨hone, hrest⟩ := List.forall_mem_cons.mp h
      rw [size_cons, hone, ih hrest, List.length_cons, Nat.add_comm]

theorem digit?_of_hex {character : Char} {value : Nat}
    (h : Text.Hex.digit? character = some value) :
    Text.Integer.digit? 16 character = some value := by
  have hvalue := (Text.Hex.digitChar_of_digit? h).1
  rw [Text.Integer.digit?, h]
  exact if_pos (decide_eq_true hvalue)

/-- Two digits spell a byte. -/
theorem octet?_pair {high low : Char} {highValue lowValue : Nat}
    (hhigh : Text.Hex.digit? high = some highValue) (hlow : Text.Hex.digit? low = some lowValue) :
    octet? [high, low] = some (UInt8.ofNat (16 * highValue + lowValue)) := by
  have hhighLt := (Text.Hex.digitChar_of_digit? hhigh).1
  have hlowLt := (Text.Hex.digitChar_of_digit? hlow).1
  have hplus : dropPlus [high, low] = [high, low] := by
    unfold dropPlus
    split
    · rename_i heq
      cases heq
      cases hhigh
    · rfl
  have hvalue : Text.Integer.magnitude? 16 [high, low] = some (16 * highValue + lowValue) := by
    simp [Text.Integer.magnitude?, digit?_of_hex hhigh, digit?_of_hex hlow]
  rw [octet?, hplus, hvalue]
  exact if_pos (by omega)

/-- The pairs from an offset on are read if those characters spell bytes. -/
theorem octets_eq {offset : Nat} (hascii : ∀ character ∈ digits, character.utf8Size = 1)
    (hlimit : digits.length < wordLimit)
    (h : Text.Hex.bytes? (digits.drop offset) = some values) :
    octets digits values.length offset = .ok values := by
  induction values generalizing offset with
  | nil => rfl
  | cons value rest ih =>
      match hdrop : digits.drop offset, h with
      | high :: low :: others, h =>
          obtain ⟨highValue, lowValue, _, hhigh, hlow, hothers, heq⟩ :=
            Text.Hex.bytes?_cons_cons.mp h
          cases heq
          have hlength := congrArg List.length hdrop
          rw [List.length_drop, List.length_cons, List.length_cons] at hlength
          have hpair : digits.extract offset (offset + 2) = [high, low] := by
            rw [List.extract_eq_take_drop, hdrop, Nat.add_sub_cancel_left]
            rfl
          have hbehind : digits.drop (offset + 2) = others := by
            rw [← List.drop_drop, hdrop]
            rfl
          rw [← hbehind] at hothers
          rw [List.length_cons, octets, add_eq (by omega)]
          change (part digits offset (offset + 2)).bind _ = _
          rw [part_eq hascii (by omega) (by omega), hpair]
          change (expect (octet? [high, low])).bind _ = _
          rw [octet?_pair hhigh hlow]
          change (octets digits rest.length (offset + 2)).bind _ = _
          rw [ih hothers]
          rfl

/-! ## Bytes -/

/-- Five bytes are enough for every index. -/
theorem ofBytes_eq (h : 5 ≤ values.length) : ofBytes values = .ok (Record.ofBytes values) := by
  obtain ⟨length, others, rfl⟩ := List.exists_cons_of_length_pos (show 0 < values.length by omega)
  rw [List.length_cons] at h
  obtain ⟨high, low, code, rest, rfl⟩ := Record.exists_header (show 3 ≤ others.length by omega)
  rcases List.eq_nil_or_concat rest with rfl | ⟨data, last, rfl⟩
  · simp at h
  rw [List.concat_eq_append, Record.ofBytes_parts]
  have hsize : (length :: high :: low :: code :: (data ++ [last])).length = data.length + 5 := by
    simp only [List.length_cons, List.length_append, List.length_nil]
  have hcount : add length.toNat 5 = .ok (length.toNat + 5) :=
    add_eq (by have := length.toNat_lt; unfold wordLimit; omega)
  have hsplit : subtract (data.length + 5) 1 = .ok (data.length + 4) :=
    subtract_eq (Nat.le_add_left 1 _)
  have hbody : slice (length :: high :: low :: code :: (data ++ [last])) 0 (data.length + 4) =
      .ok (length :: high :: low :: code :: data) :=
    slice_append_left (length :: high :: low :: code :: data) [last]
  have hbehind : slice (length :: high :: low :: code :: (data ++ [last])) (data.length + 4)
      (data.length + 5) = .ok [last] := by
    rw [← hsize]
    exact slice_append_right (length :: high :: low :: code :: data) [last]
  have hdata : slice (length :: high :: low :: code :: data) 4
      (length :: high :: low :: code :: data).length = .ok data :=
    slice_append_right [length, high, low, code] data
  unfold ofBytes
  simp only [hsize, hcount, hsplit, hbody, hbehind, hdata, index, List.getElem?_cons_zero,
    List.getElem?_cons_succ, bind, Except.bind]
  split
  · rfl
  · split
    · rfl
    · split <;> rfl

/-! ## Lines -/

theorem ofDigits_eq (digits : List Char) : ofDigits digits = .ok (Record.ofDigits digits) := by
  unfold ofDigits Record.ofDigits
  by_cases hdigits : digits.all Text.Hex.isDigit = true
  · have hascii : ∀ character ∈ digits, character.utf8Size = 1 :=
      fun character hmem => utf8Size_of_isDigit (List.all_eq_true.mp hdigits character hmem)
    rw [size_eq_length hascii, hdigits]
    by_cases hshort : digits.length < Record.minimumDigits
    · simp only [if_pos hshort, Bool.not_true, Bool.false_eq_true, if_false]
    · by_cases hlong : Record.maximumDigits < digits.length
      · simp only [if_neg hshort, if_pos hlong, Bool.not_true, Bool.false_eq_true, if_false]
      · by_cases heven : digits.length % 2 = 0
        · obtain ⟨values, hspells⟩ := Text.Hex.exists_spells hdigits heven
          have hlength := hspells.length_eq
          have hbytes := Text.Hex.spells_iff.mp hspells
          have hlimit : digits.length < wordLimit :=
            Nat.lt_of_le_of_lt (Nat.le_of_not_lt hlong) (by decide)
          have hoctets : octets digits ((digits.length + 1) / 2) 0 = .ok values := by
            rw [show (digits.length + 1) / 2 = values.length by omega]
            exact octets_eq hascii hlimit hbytes
          have henough : 5 ≤ values.length := by
            have := Nat.le_of_not_lt hshort
            unfold Record.minimumDigits at this
            omega
          simp only [if_neg hshort, if_neg hlong, heven, ne_eq, not_true_eq_false, Bool.not_true,
            Bool.false_eq_true, if_false, hbytes, hoctets]
          exact ofBytes_eq henough
        · simp only [if_neg hshort, if_neg hlong, if_pos heven, ne_eq, Bool.not_true,
            Bool.false_eq_true, if_false]
  · have hrefused : (!digits.all Text.Hex.isDigit) = true := by
      rw [Bool.not_eq_true] at hdigits
      rw [hdigits, Bool.not_false]
    rw [if_pos hrefused, if_pos hrefused]

/-- Reading a line meets no hazard. -/
theorem parse_eq (line : List Char) : parse line = .ok (Record.parse line) := by
  unfold parse
  split
  · exact ofDigits_eq _
  · rename_i hother
    unfold Record.parse
    split
    · exact absurd rfl (hother _)
    · rfl

end IspStream.Guarded
