import Mathlib

/-!
# Clocks

The readings of a clock that never goes back, and the low words of them that a register shows. The
difference of two low words is the low word of the difference, whether the register went round or
not.
-/

structure Clock where
  time : ℕ → ℕ
  mono : Monotone time

namespace Clock

variable {w : ℕ} {a b c d : ℕ}

theorem ofNat_sub (h : a ≤ b) : BitVec.ofNat w b - BitVec.ofNat w a = BitVec.ofNat w (b - a) := by
  have hb : BitVec.ofNat w b = BitVec.ofNat w (b - a) + BitVec.ofNat w a := by
    rw [← BitVec.ofNat_add, Nat.sub_add_cancel h]
  rw [hb, BitVec.add_sub_cancel]

/-- A time that fits is shown as it is. -/
theorem toNat_ofNat (h : a < 2 ^ w) : (BitVec.ofNat w a).toNat = a := by
  rw [BitVec.toNat_ofNat]
  exact Nat.mod_eq_of_lt h

theorem toNat_ofNat_le : (BitVec.ofNat w a).toNat ≤ a := by
  rw [BitVec.toNat_ofNat]
  exact Nat.mod_le _ _

theorem elapsed_toNat (hab : a ≤ b) (h : b < a + 2 ^ w) :
    (BitVec.ofNat w b - BitVec.ofNat w a).toNat = b - a := by
  rw [ofNat_sub hab]
  exact toNat_ofNat (by omega)

/-- The register never shows more than has elapsed. -/
theorem elapsed_toNat_le (hab : a ≤ b) :
    (BitVec.ofNat w b - BitVec.ofNat w a).toNat ≤ b - a := by
  rw [ofNat_sub hab]
  exact toNat_ofNat_le

end Clock
