/-!
# Bytes of a number

Multi-byte fields, in hex records as well as in the command stream, are
big-endian: the most significant byte comes first.
-/

namespace IspStream

/-- The content of an unprogrammed memory cell. -/
def blank : UInt8 := 0xFF

/-- The big-endian bytes of a number, reduced modulo `256 ^ width`. -/
def bigEndian : Nat → Nat → List UInt8
  | 0, _ => []
  | width + 1, value => bigEndian width (value / 256) ++ [UInt8.ofNat value]

/-- The number that big-endian bytes stand for. -/
def ofBigEndian (bytes : List UInt8) : Nat :=
  bytes.foldl (fun value byte => 256 * value + byte.toNat) 0

@[simp] theorem length_bigEndian (width value : Nat) : (bigEndian width value).length = width := by
  induction width generalizing value with
  | zero => rfl
  | succ width ih => simp [bigEndian, ih]

/-- The two's complement of a byte sum: the value that brings the sum to zero. -/
def checksum (bytes : List UInt8) : UInt8 := -bytes.foldr (· + ·) 0

end IspStream
