import Asnu.Lib.Memory

/-!
Bit arrays packed eight to a byte in a `Memory`: bit `i` is bit `i % 8` of the
byte `i / 8` places after the base. Writing one bit of the array leaves every
other bit of it, and every byte outside it, alone.
-/

namespace Asnu.Lib.Bitmap

/-- The byte that holds bit `i`. -/
def slot (base : BitVec 64) (i : Nat) : BitVec 64 := base + BitVec.ofNat 64 (i / 8)

def mask (i : Nat) : BitVec 8 := 1#8 <<< (i % 8)

def bit (m : Memory) (base : BitVec 64) (i : Nat) : Bool :=
  (m (slot base i)).getLsbD (i % 8)

def set (m : Memory) (base : BitVec 64) (i : Nat) : Memory :=
  m.poke (slot base i) (m (slot base i) ||| mask i)

def clear (m : Memory) (base : BitVec 64) (i : Nat) : Memory :=
  m.poke (slot base i) (m (slot base i) &&& ~~~mask i)

theorem getLsbD_mask (i j : Nat) (hj : j < 8) :
    (mask i).getLsbD j = decide (j = i % 8) := by
  have hi : i % 8 < 8 := Nat.mod_lt _ (by decide)
  simp only [mask, BitVec.getLsbD_shiftLeft, BitVec.getLsbD_one]
  by_cases h : j = i % 8
  · subst h
    simp [hi]
  · rcases Nat.lt_or_gt_of_ne h with hlt | hgt
    · simp [hlt, h]
    · have hsub : j - i % 8 ≠ 0 := by omega
      simp [hsub, h]

/-- The test `byte & mask == 0` of the packed representation reads the bit. -/
theorem and_mask_eq_zero (b : BitVec 8) (i : Nat) :
    b &&& mask i = 0#8 ↔ b.getLsbD (i % 8) = false := by
  have hi : i % 8 < 8 := Nat.mod_lt _ (by decide)
  constructor
  · intro h
    have hbit := congrArg (fun v : BitVec 8 => v.getLsbD (i % 8)) h
    simpa [getLsbD_mask i _ hi] using hbit
  · intro h
    apply BitVec.eq_of_getLsbD_eq
    intro j hj
    rw [BitVec.getLsbD_and, getLsbD_mask i j hj]
    by_cases hji : j = i % 8
    · simp [hji, h]
    · simp [hji]

theorem test_eq_not_bit (m : Memory) (base : BitVec 64) (i : Nat) :
    (m (slot base i) &&& mask i == 0#8) = !bit m base i := by
  rw [Bool.eq_iff_iff, beq_iff_eq, and_mask_eq_zero, Bool.not_eq_true', bit]

theorem slot_inj (base : BitVec 64) {i j : Nat} (hi : i < 2 ^ 64)
    (hj : j < 2 ^ 64) : slot base i = slot base j ↔ i / 8 = j / 8 := by
  unfold slot
  constructor
  · intro h
    have hnat := congrArg BitVec.toNat h
    simp only [BitVec.toNat_add, BitVec.toNat_ofNat] at hnat
    omega
  · intro h
    rw [h]

/-- Replacing the byte of bit `i` by `b` changes the bits of that byte to
those of `b` and no other bit. -/
theorem bit_poke (m : Memory) (base : BitVec 64) (b : BitVec 8) {i j : Nat}
    (hi : i < 2 ^ 64) (hj : j < 2 ^ 64) :
    bit (m.poke (slot base i) b) base j =
      if i / 8 = j / 8 then b.getLsbD (j % 8) else bit m base j := by
  unfold bit
  by_cases h : i / 8 = j / 8
  · rw [if_pos h, (slot_inj base hj hi).mpr h.symm, Memory.poke_self]
  · have hne : slot base j ≠ slot base i := fun heq =>
      h ((slot_inj base hj hi).mp heq).symm
    rw [if_neg h, Memory.poke_ne m b hne]

/-- Replacing the byte of bit `i` by one that differs from it at that bit
at most. -/
theorem bit_poke_slot (m : Memory) (base : BitVec 64) {b : BitVec 8} {v : Bool}
    {i j : Nat} (hi : i < 2 ^ 64) (hj : j < 2 ^ 64)
    (hb : ∀ k < 8, b.getLsbD k =
      if k = i % 8 then v else (m (slot base i)).getLsbD k) :
    bit (m.poke (slot base i) b) base j = if j = i then v else bit m base j := by
  rw [bit_poke m base b hi hj]
  by_cases h : i / 8 = j / 8
  · rw [if_pos h, hb _ (Nat.mod_lt _ (by decide)), (slot_inj base hi hj).mpr h]
    by_cases hji : j = i
    · rw [if_pos hji, if_pos (by rw [hji])]
    · have hmod : ¬ j % 8 = i % 8 := by omega
      rw [if_neg hji, if_neg hmod, bit]
  · have hji : ¬ j = i := fun heq => h (by rw [heq])
    rw [if_neg h, if_neg hji]

theorem bit_set (m : Memory) (base : BitVec 64) {i j : Nat}
    (hi : i < 2 ^ 64) (hj : j < 2 ^ 64) :
    bit (set m base i) base j = if j = i then true else bit m base j := by
  apply bit_poke_slot m base hi hj
  intro k hk
  rw [BitVec.getLsbD_or, getLsbD_mask i k hk]
  by_cases hki : k = i % 8 <;> simp [hki]

theorem bit_clear (m : Memory) (base : BitVec 64) {i j : Nat}
    (hi : i < 2 ^ 64) (hj : j < 2 ^ 64) :
    bit (clear m base i) base j = if j = i then false else bit m base j := by
  apply bit_poke_slot m base hi hj
  intro k hk
  rw [BitVec.getLsbD_and, BitVec.getLsbD_not, getLsbD_mask i k hk]
  by_cases hki : k = i % 8 <;> simp [hki, hk]

/-- A memory that agrees on the bytes of the array has the same bits. -/
theorem bit_congr {m m' : Memory} {base : BitVec 64} {i : Nat}
    (h : m (slot base i) = m' (slot base i)) :
    bit m base i = bit m' base i := by
  rw [bit, bit, h]

theorem clear_out (m : Memory) {base x : BitVec 64} {i : Nat}
    (h : x ≠ slot base i) : clear m base i x = m x := Memory.poke_ne m _ h

theorem set_out (m : Memory) {base x : BitVec 64} {i : Nat}
    (h : x ≠ slot base i) : set m base i x = m x := Memory.poke_ne m _ h

end Asnu.Lib.Bitmap
