import IspStream.Text.Hex

/-!
# Integer literals

A parameter is a decimal integer, or a hexadecimal one behind `0x`.  Either may
carry one sign, which for a hexadecimal literal stands behind the `0x`, and must
fit a signed word of 64 bits.  A bare `0x` is no literal, and neither is one
behind `0X`.
-/

namespace IspStream.Text.Integer

/-- The least value of a parameter. -/
def minimum : Int := -9223372036854775808

/-- The greatest value of a parameter. -/
def maximum : Int := 9223372036854775807

/-- The value of one digit in the given base. -/
def digit? (base : Nat) (character : Char) : Option Nat :=
  (Hex.digit? character).filter fun value => decide (value < base)

/-- The value of a non-empty run of digits, the most significant one first. -/
def magnitude? (base : Nat) : List Char → Option Nat
  | [] => none
  | digits =>
    digits.foldlM (fun value character => (digit? base character).map (base * value + ·)) 0

/-- The value of digits behind at most one sign. -/
def signed? (base : Nat) : List Char → Option Int
  | '-' :: digits => (magnitude? base digits).map fun value => -(value : Int)
  | '+' :: digits => (magnitude? base digits).map fun value => (value : Int)
  | digits => (magnitude? base digits).map fun value => (value : Int)

/-- The value of a literal without white space around it. -/
def literal? (text : List Char) : Option Int :=
  let value? :=
    match text with
    | '0' :: 'x' :: first :: rest => signed? 16 (first :: rest)
    | _ => signed? 10 text
  value?.filter fun value => decide (minimum ≤ value) && decide (value ≤ maximum)

example : literal? "0x-1f".toList = some (-31) := by decide

example : literal? "0x".toList = none := by decide

end IspStream.Text.Integer
