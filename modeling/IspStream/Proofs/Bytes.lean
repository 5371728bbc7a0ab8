import IspStream.Bytes
import Mathlib.Algebra.Group.Nat.Defs

/-!
# Numbers and their bytes

A field of `width` bytes holds a number modulo `256 ^ width`: this is what reading
the bytes gives back (`ofBigEndian_bigEndian`), and reducing a number that way before
writing it makes no difference (`bigEndian_mod`).
-/

namespace IspStream

theorem bigEndian_two (value : Nat) :
    bigEndian 2 value = [UInt8.ofNat (value / 256), UInt8.ofNat value] := by
  simp [bigEndian]

/-- Reading the bytes back gives the number, up to the reduction. -/
theorem ofBigEndian_bigEndian (width value : Nat) :
    ofBigEndian (bigEndian width value) = value % 256 ^ width := by
  induction width generalizing value with
  | zero => simp [bigEndian, ofBigEndian, Nat.mod_one]
  | succ width ih =>
      have hprevious := ih (value / 256)
      simp only [ofBigEndian, bigEndian, List.foldl_append, List.foldl_cons, List.foldl_nil] at *
      rw [hprevious, Nat.pow_succ', Nat.mod_mul, UInt8.toNat_ofNat']
      omega

/-- Reducing a number to the width of a field does not change its bytes. -/
theorem bigEndian_mod (width value : Nat) :
    bigEndian width (value % 256 ^ width) = bigEndian width value := by
  induction width generalizing value with
  | zero => rfl
  | succ width ih =>
      have hlast : UInt8.ofNat (value % 256 ^ (width + 1)) = UInt8.ofNat value := by
        rw [← UInt8.toNat_inj, UInt8.toNat_ofNat', UInt8.toNat_ofNat',
          Nat.mod_mod_of_dvd _ (Nat.dvd_of_pow_dvd (Nat.succ_pos width) (Nat.dvd_refl _))]
      rw [bigEndian, bigEndian, hlast, Nat.pow_succ', Nat.mod_mul_right_div_self, ih]

end IspStream
