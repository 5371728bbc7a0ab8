import IspStream.Instruction
import IspStream.Proofs.Bytes
import Mathlib.Data.List.Basic

/-!
# Reading a command stream

A command stream has no marks between its instructions.  `Instruction.read?` finds the
end of the first one from two things alone: the opcode, which says how many operand bytes
follow, and for a programming instruction the length field, which says how long the
payload behind the header is.  The bytes of a payload are never looked at, so they may
resemble opcodes, and the opcode `0xFF` is an instruction like any other.

`readAll?_flatMap_bytes` states that reading undoes writing for a whole stream, provided
that every payload is short enough for its length field (`Sized`).
-/

namespace IspStream

/-- The first bytes of a stream and what is behind them. -/
def takeField? (width : Nat) (stream : List UInt8) : Option (List UInt8 × List UInt8) :=
  if width ≤ stream.length then some (stream.splitAt width) else none

theorem takeField?_append (front rest : List UInt8) :
    takeField? front.length (front ++ rest) = some (front, rest) := by
  unfold takeField?
  rw [if_pos (by rw [List.length_append]; omega), List.splitAt_eq, List.take_left,
    List.drop_left]

theorem length_le_of_takeField? {width : Nat} {stream front rest : List UInt8}
    (h : takeField? width stream = some (front, rest)) : rest.length ≤ stream.length := by
  unfold takeField? at h
  split at h
  · rw [List.splitAt_eq] at h
    cases h
    rw [List.length_drop]
    omega
  · cases h

namespace Instruction

/-! ## The first instruction -/

/-- Reads a programming instruction behind its opcode: the header, and as many bytes of
payload as its length field says. -/
def readProgram? (memory : Memory) (stream : List UInt8) :
    Option (Instruction × List UInt8) := do
  let (address, stream) ← takeField? 4 stream
  let (length, stream) ← takeField? 4 stream
  let (pageSize, stream) ← takeField? 2 stream
  let (payload, stream) ← takeField? (ofBigEndian length) stream
  return (program memory (UInt32.ofNat (ofBigEndian address))
    (UInt16.ofNat (ofBigEndian pageSize)) payload, stream)

/-- Reads the instruction that a stream begins with. -/
def read? : List UInt8 → Option (Instruction × List UInt8)
  | 0x01 :: divider :: rest => some (connect divider, rest)
  | 0x02 :: rest => some (disconnect, rest)
  | 0x03 :: first :: second :: third :: fourth :: rest =>
    some (spiWrite first second third fourth, rest)
  | 0x04 :: first :: second :: third :: fourth :: expected :: rest =>
    some (spiVerify first second third fourth expected, rest)
  | 0x05 :: rest => readProgram? .flash rest
  | 0x06 :: duration :: rest => some (wait duration, rest)
  | 0x07 :: high :: low :: rest =>
    some (countDown (UInt16.ofNat (ofBigEndian [high, low])), rest)
  | 0x08 :: rest => readProgram? .eeprom rest
  | 0xFF :: rest => some (finish, rest)
  | _ => none

/-- The payload, if there is one, is short enough for the length field. -/
def Sized : Instruction → Prop
  | program _ _ _ payload => payload.length < 2 ^ 32
  | _ => True

theorem readProgram?_append (memory : Memory) (address : UInt32) (pageSize : UInt16)
    (payload rest : List UInt8) (h : payload.length < 2 ^ 32) :
    readProgram? memory (bigEndian 4 address.toNat ++ (bigEndian 4 payload.length ++
      (bigEndian 2 pageSize.toNat ++ (payload ++ rest)))) =
      some (program memory address pageSize payload, rest) := by
  have hfield : ∀ width value : Nat, ∀ behind : List UInt8,
      takeField? width (bigEndian width value ++ behind) =
        some (bigEndian width value, behind) := by
    intro width value behind
    have hwidth := takeField?_append (bigEndian width value) behind
    rwa [length_bigEndian] at hwidth
  have haddress : UInt32.ofNat (ofBigEndian (bigEndian 4 address.toNat)) = address := by
    have hsmall : address.toNat < 256 ^ 4 := address.toNat_lt
    rw [ofBigEndian_bigEndian, Nat.mod_eq_of_lt hsmall, UInt32.ofNat_toNat]
  have hpage : UInt16.ofNat (ofBigEndian (bigEndian 2 pageSize.toNat)) = pageSize := by
    have hsmall : pageSize.toNat < 256 ^ 2 := pageSize.toNat_lt
    rw [ofBigEndian_bigEndian, Nat.mod_eq_of_lt hsmall, UInt16.ofNat_toNat]
  have hlength : ofBigEndian (bigEndian 4 payload.length) = payload.length := by
    rw [ofBigEndian_bigEndian]
    exact Nat.mod_eq_of_lt h
  unfold readProgram?
  simp only [hfield, Option.bind_eq_bind, Option.bind_some, hlength, takeField?_append,
    haddress, hpage]
  rfl

/-- The first instruction of a stream is read back, whatever comes behind it. -/
theorem read?_append (instruction : Instruction) (rest : List UInt8) (h : instruction.Sized) :
    read? (instruction.bytes ++ rest) = some (instruction, rest) := by
  cases instruction with
  | program memory address pageSize payload =>
      have hread := readProgram?_append memory address pageSize payload rest h
      cases memory with
      | flash | eeprom =>
          simp only [bytes, fields, List.flatten_cons, List.flatten_nil, List.append_nil,
            List.append_assoc, List.cons_append, List.nil_append]
          exact hread
  | countDown limit =>
      have hlimit : UInt16.ofNat (ofBigEndian (bigEndian 2 limit.toNat)) = limit := by
        have hsmall : limit.toNat < 256 ^ 2 := limit.toNat_lt
        rw [ofBigEndian_bigEndian, Nat.mod_eq_of_lt hsmall, UInt16.ofNat_toNat]
      rw [bigEndian_two] at hlimit
      simp only [bytes, fields, bigEndian_two, List.flatten_cons, List.flatten_nil,
        List.append_nil, List.cons_append, List.nil_append]
      exact congrArg (fun value => some (countDown value, rest)) hlimit
  | connect | disconnect | spiWrite | spiVerify | wait | finish => rfl

/-- Reading an instruction takes bytes off the stream. -/
theorem length_lt_of_read? {stream rest : List UInt8} {instruction : Instruction}
    (h : read? stream = some (instruction, rest)) : rest.length < stream.length := by
  have hprogram : ∀ (memory : Memory) (behind : List UInt8),
      readProgram? memory behind = some (instruction, rest) → rest.length ≤ behind.length := by
    intro memory behind hread
    unfold readProgram? at hread
    simp only [Option.bind_eq_bind, Option.bind_eq_some_iff] at hread
    obtain ⟨⟨address, first⟩, hfirst, ⟨length, second⟩, hsecond, ⟨pageSize, third⟩, hthird,
      ⟨payload, fourth⟩, hfourth, hresult⟩ := hread
    cases hresult
    calc fourth.length
      _ ≤ third.length := length_le_of_takeField? hfourth
      _ ≤ second.length := length_le_of_takeField? hthird
      _ ≤ first.length := length_le_of_takeField? hsecond
      _ ≤ behind.length := length_le_of_takeField? hfirst
  unfold read? at h
  split at h
  case h_5 | h_8 => exact Nat.lt_succ_of_le (hprogram _ _ h)
  case h_10 => cases h
  all_goals
    cases h
    simp only [List.length_cons]
    omega

/-! ## A whole stream -/

/-- Reads all instructions of a stream.  There is no answer if some bytes are left over. -/
def readAll? (stream : List UInt8) : Option (List Instruction) :=
  match stream with
  | [] => some []
  | byte :: more =>
    match h : read? (byte :: more) with
    | none => none
    | some (instruction, rest) =>
      have : rest.length < (byte :: more).length := length_lt_of_read? h
      (readAll? rest).map (instruction :: ·)
termination_by stream.length
decreasing_by exact this

theorem readAll?_of_read? {stream rest : List UInt8} {instruction : Instruction}
    (h : read? stream = some (instruction, rest)) :
    readAll? stream = (readAll? rest).map (instruction :: ·) := by
  cases stream with
  | nil => cases h
  | cons byte more =>
      rw [readAll?]
      split
      · rename_i hnone
        rw [h] at hnone
        cases hnone
      · rename_i hsome
        rw [h] at hsome
        cases hsome
        rfl

/-- **Reading undoes writing.** -/
theorem readAll?_flatMap_bytes {instructions : List Instruction}
    (h : ∀ instruction ∈ instructions, instruction.Sized) :
    readAll? (instructions.flatMap bytes) = some instructions := by
  induction instructions with
  | nil =>
      rw [List.flatMap_nil, readAll?]
  | cons instruction rest ih =>
      have hfirst := read?_append instruction (rest.flatMap bytes) (h instruction List.mem_cons_self)
      have hrest := ih fun other hother => h other (List.mem_cons_of_mem _ hother)
      rw [List.flatMap_cons, readAll?_of_read? hfirst, hrest]
      rfl

end Instruction

end IspStream
