/-!
# Hexadecimal text

Digits are read in either case and written in upper case.  A byte is a pair of
digits, the high one first.
-/

namespace IspStream.Text.Hex

/-! ## Reading -/

/-- The value of a hexadecimal digit. -/
def digit? (character : Char) : Option Nat :=
  if '0' ≤ character ∧ character ≤ '9' then some (character.toNat - '0'.toNat)
  else if 'A' ≤ character ∧ character ≤ 'F' then some (character.toNat - 'A'.toNat + 10)
  else if 'a' ≤ character ∧ character ≤ 'f' then some (character.toNat - 'a'.toNat + 10)
  else none

/-- Whether a character is a hexadecimal digit. -/
def isDigit (character : Char) : Bool := (digit? character).isSome

/-- Reads pairs of digits as bytes.  There is no answer for a character that is
no digit, nor for a digit without a partner. -/
def bytes? : List Char → Option (List UInt8)
  | [] => some []
  | [_] => none
  | high :: low :: rest => do
    let highValue ← digit? high
    let lowValue ← digit? low
    let bytes ← bytes? rest
    return UInt8.ofNat (16 * highValue + lowValue) :: bytes

/-! ## Writing -/

/-- The digit of a value below sixteen. -/
def digitChar (value : Nat) : Char :=
  if value < 10 then Char.ofNat ('0'.toNat + value) else Char.ofNat ('A'.toNat + (value - 10))

/-- The two digits of a byte. -/
def byte (value : UInt8) : List Char :=
  [digitChar (value.toNat / 16), digitChar (value.toNat % 16)]

/-- The digits of a list of bytes. -/
def bytes (values : List UInt8) : List Char := values.flatMap byte

/-- The digits of a number, without leading zeros. -/
def digits (value : Nat) : List Char :=
  if value < 16 then [digitChar value] else digits (value / 16) ++ [digitChar (value % 16)]

/-- The number as text, filled up with zeros to at least `width` digits. -/
def padded (width value : Nat) : String :=
  String.ofList (List.leftpad width '0' (digits value))

example : padded 5 0x1A2F = "01A2F" := by cbv

/-! ## Reading back -/

theorem digit?_digitChar : ∀ value < 16, digit? (digitChar value) = some value := by decide

@[simp] theorem length_bytes (values : List UInt8) : (bytes values).length = 2 * values.length := by
  induction values with
  | nil => rfl
  | cons value rest ih =>
      simp only [bytes, List.flatMap_cons, byte, List.length_append, List.length_cons,
        List.length_nil] at ih ⊢
      omega

/-- Written bytes are read back. -/
@[simp] theorem bytes?_bytes (values : List UInt8) : bytes? (bytes values) = some values := by
  induction values with
  | nil => rfl
  | cons value rest ih =>
      have hhigh := digit?_digitChar (value.toNat / 16) (by have := value.toNat_lt; omega)
      have hlow := digit?_digitChar (value.toNat % 16) (Nat.mod_lt _ (by decide))
      have hvalue : UInt8.ofNat (16 * (value.toNat / 16) + value.toNat % 16) = value := by
        rw [Nat.div_add_mod, UInt8.ofNat_toNat]
      change (do
        let highValue ← digit? (digitChar (value.toNat / 16))
        let lowValue ← digit? (digitChar (value.toNat % 16))
        let read ← bytes? (bytes rest)
        return UInt8.ofNat (16 * highValue + lowValue) :: read) = _
      rw [hhigh, hlow, ih]
      exact congrArg (fun first => some (first :: rest)) hvalue

end IspStream.Text.Hex
