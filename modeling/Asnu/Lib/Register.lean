import Mathlib.Data.BitVec
import Mathlib.Logic.Function.Basic

/-!
Registers that keep what is written in their writable bits and ignore what is written to
the others.
-/

namespace Asnu.Lib

variable {w : Nat} {ι : Type}

def maskedWrite (mask old value : BitVec w) : BitVec w := (old &&& ~~~mask) ||| (value &&& mask)

/-- The last write counts. -/
theorem maskedWrite_maskedWrite (mask old value value' : BitVec w) :
    maskedWrite mask (maskedWrite mask old value) value' = maskedWrite mask old value' := by
  ext i hi
  simp only [maskedWrite, BitVec.getElem_or, BitVec.getElem_and, BitVec.getElem_not]
  cases mask[i] <;> simp

theorem maskedWrite_self (mask old : BitVec w) : maskedWrite mask old old = old := by
  ext i hi
  simp only [maskedWrite, BitVec.getElem_or, BitVec.getElem_and, BitVec.getElem_not]
  cases mask[i] <;> simp

/-- All ones show which bits can be written. -/
theorem maskedWrite_ones (mask old : BitVec w) :
    maskedWrite mask old (BitVec.allOnes w) = old ||| mask := by
  ext i hi
  simp only [maskedWrite, BitVec.getElem_or, BitVec.getElem_and, BitVec.getElem_not,
    BitVec.getElem_allOnes]
  cases mask[i] <;> simp

section File

variable [DecidableEq ι] (mask : ι → BitVec w)

/-- The registers after a write to one of them. -/
def writeRegister (regs : ι → BitVec w) (a : ι) (value : BitVec w) : ι → BitVec w :=
  Function.update regs a (maskedWrite (mask a) (regs a) value)

variable {mask} {regs : ι → BitVec w} {a b : ι} {u v : BitVec w}

theorem writeRegister_same :
    writeRegister mask regs a v a = maskedWrite (mask a) (regs a) v :=
  Function.update_self a _ regs

theorem writeRegister_other (h : b ≠ a) : writeRegister mask regs a v b = regs b :=
  Function.update_of_ne h _ regs

theorem writeRegister_comm (h : a ≠ b) :
    writeRegister mask (writeRegister mask regs a u) b v =
      writeRegister mask (writeRegister mask regs b v) a u := by
  unfold writeRegister
  rw [Function.update_of_ne h.symm, Function.update_of_ne h, Function.update_comm h]

/-- What was there before can be written back. -/
theorem writeRegister_restore (hb : v = regs a) :
    writeRegister mask (writeRegister mask regs a u) a v = regs := by
  rw [hb, writeRegister, writeRegister_same, maskedWrite_maskedWrite, maskedWrite_self,
    writeRegister, Function.update_idem, Function.update_eq_self]

/-- So can two registers that have been overwritten together. -/
theorem writeRegister_restore_two {u' v' : BitVec w} (h : a ≠ b) (hu : u' = regs a)
    (hv : v' = regs b) :
    writeRegister mask (writeRegister mask (writeRegister mask (writeRegister mask regs a u) b v)
      a u') b v' = regs := by
  rw [writeRegister_comm h.symm, writeRegister_restore hu, writeRegister_restore hv]

end File

/-! ### The bits from `k` on -/

/-- The bits of an address that select a region of `2 ^ k` bytes. -/
def addressBits (w k : Nat) : BitVec w := BitVec.allOnes w <<< k

theorem getElem_addressBits {k i : Nat} (hi : i < w) :
    (addressBits w k)[i] = decide (k ≤ i) := by
  rw [addressBits, BitVec.getElem_shiftLeft]
  by_cases hk : k ≤ i
  · simp [hk, Nat.not_lt.mpr hk]
  · simp [hk, Nat.lt_of_not_le hk]

/-- An aligned address has no other bits. -/
theorem or_addressBits {x : BitVec w} {k : Nat} (hx : 2 ^ k ∣ x.toNat) :
    x ||| addressBits w k = addressBits w k := by
  obtain ⟨q, hq⟩ := hx
  ext i hi
  rw [BitVec.getElem_or, getElem_addressBits hi]
  by_cases hk : k ≤ i
  · simp [hk]
  · have hbit : x[i] = false := by
      rw [BitVec.getElem_eq_testBit_toNat, hq, Nat.testBit_two_pow_mul]
      simp [hk]
    simp [hbit]

theorem toNat_addressBits {k : Nat} (hk : k ≤ w) :
    (addressBits w k).toNat = 2 ^ w - 2 ^ k := by
  have hle : 2 ^ k ≤ 2 ^ w := Nat.pow_le_pow_right (by decide) hk
  have hpos := Nat.two_pow_pos k
  have hones : (2 ^ w - 1) * 2 ^ k = 2 ^ w - 2 ^ k + 2 ^ w * (2 ^ k - 1) := by
    rw [Nat.sub_mul, Nat.mul_sub, Nat.one_mul, Nat.mul_one]
    have hfactor : 2 ^ w ≤ 2 ^ w * 2 ^ k := Nat.le_mul_of_pos_right _ hpos
    omega
  rw [addressBits, BitVec.toNat_shiftLeft, BitVec.toNat_allOnes, Nat.shiftLeft_eq, hones,
    Nat.add_mul_mod_self_left, Nat.mod_eq_of_lt (by omega)]

/-- Complement and increment give the size of the region back. -/
theorem toNat_neg_addressBits {k : Nat} (hk : k < w) :
    (~~~(addressBits w k) + 1#w).toNat = 2 ^ k := by
  have hlt : 2 ^ k < 2 ^ w := Nat.pow_lt_pow_right (by decide) hk
  have hpos := Nat.two_pow_pos k
  rw [← BitVec.neg_eq_not_add, BitVec.toNat_neg, toNat_addressBits (Nat.le_of_lt hk),
    Nat.sub_sub_self (Nat.le_of_lt hlt), Nat.mod_eq_of_lt hlt]

/-- A region as large as the register can count has no address in it. -/
theorem addressBits_eq_zero_iff {k : Nat} : addressBits w k = 0#w ↔ w ≤ k := by
  constructor
  · intro hzero
    by_contra hlt
    have hbit : (addressBits w k)[k] = true := by
      rw [getElem_addressBits (Nat.lt_of_not_le hlt)]
      exact decide_eq_true (Nat.le_refl k)
    rw [hzero] at hbit
    simp at hbit
  · intro hle
    ext i hi
    rw [getElem_addressBits hi, decide_eq_false (by omega)]
    simp

theorem addressBits_and_addressBits {j k : Nat} (h : j ≤ k) :
    addressBits w k &&& addressBits w j = addressBits w k := by
  ext i hi
  rw [BitVec.getElem_and, getElem_addressBits hi, getElem_addressBits hi]
  by_cases hk : k ≤ i
  · simp [hk, Nat.le_trans h hk]
  · simp [hk]

theorem setWidth_addressBits {v k : Nat} (h : v ≤ w) :
    (addressBits w k).setWidth v = addressBits v k := by
  ext i hi
  rw [BitVec.getElem_setWidth, getElem_addressBits hi, BitVec.getLsbD_eq_getElem (by omega),
    getElem_addressBits (by omega)]

end Asnu.Lib
