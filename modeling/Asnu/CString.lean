import Asnu.Lib.Memory

/-!
The byte loops of `string.c` that the allocator and the page tables use, and
the closed form of each: the memory after the loop, byte by byte.
-/

namespace Asnu

open Lib

abbrev Ptr := BitVec 64

def NULL : Ptr := 0#64

def ascii (c : Char) : BitVec 8 := BitVec.ofNat 8 c.toNat

/-- Iterations `i, i + 1, ...` of the loop of `memset`, `n` of them. -/
def memsetLoop (p : Ptr) (c : BitVec 8) : Nat → Nat → Memory → Memory
  | 0, _, m => m
  | n + 1, i, m => memsetLoop p c n (i + 1) (m.poke (p + BitVec.ofNat 64 i) c)

def memset (m : Memory) (s : Ptr) (c : BitVec 32) (n : BitVec 64) : Memory :=
  memsetLoop s (c.setWidth 8) n.toNat 0 m

/-- Iterations `i, i + 1, ...` of the loop of `memcpy`, `n` of them. -/
def memcpyLoop (dest src : Ptr) : Nat → Nat → Memory → Memory
  | 0, _, m => m
  | n + 1, i, m => memcpyLoop dest src n (i + 1)
      (m.poke (dest + BitVec.ofNat 64 i) (m (src + BitVec.ofNat 64 i)))

def memcpy (m : Memory) (dest src : Ptr) (n : BitVec 64) : Memory :=
  memcpyLoop dest src n.toNat 0 m

/-- The address `i` bytes after `p`, recognised by its distance from `p`. -/
theorem eq_offset_iff (p x : Ptr) {i : Nat} (hi : i < 2 ^ 64) :
    x = p + BitVec.ofNat 64 i ↔ (x - p).toNat = i := by
  constructor
  · rintro rfl
    exact offset_toNat p hi
  · intro h
    rw [← h, BitVec.ofNat_toNat, BitVec.setWidth_eq, BitVec.add_comm,
      BitVec.sub_add_cancel]

theorem memsetLoop_apply (p : Ptr) (c : BitVec 8) (n i : Nat) (m : Memory)
    (hin : i + n ≤ 2 ^ 64) (x : Ptr) :
    memsetLoop p c n i m x =
      if i ≤ (x - p).toNat ∧ (x - p).toNat < i + n then c else m x := by
  induction n generalizing i m with
  | zero => rw [memsetLoop, if_neg (by omega)]
  | succ n ih =>
      rw [memsetLoop, ih (i + 1) _ (by omega), Memory.poke]
      have hx := eq_offset_iff p x (i := i) (by omega)
      by_cases hxi : (x - p).toNat = i
      · rw [if_neg (by omega), if_pos (hx.mpr hxi), if_pos (by omega)]
      · have hne : ¬ x = p + BitVec.ofNat 64 i := fun h => hxi (hx.mp h)
        rw [if_neg hne]
        congr 1
        apply propext
        omega

/-- `memset` fills exactly the bytes it is given. -/
theorem memset_eq_fill (m : Memory) (s : Ptr) (c : BitVec 32) (n : BitVec 64) :
    memset m s c n = m.fill s n.toNat (c.setWidth 8) := by
  funext x
  rw [memset, memsetLoop_apply s _ _ 0 m (by omega), Memory.fill]
  simp only [InRange, Nat.zero_le, true_and, Nat.zero_add]
  rfl

/-- What is read must not have been written in a turn before. -/
theorem memcpyLoop_apply (dest src : Ptr) (n i : Nat) (m : Memory)
    (hin : i + n ≤ 2 ^ 64)
    (hapart : ∀ j k, i ≤ j → j < k → k < i + n →
      dest + BitVec.ofNat 64 j ≠ src + BitVec.ofNat 64 k) (x : Ptr) :
    memcpyLoop dest src n i m x =
      if i ≤ (x - dest).toNat ∧ (x - dest).toNat < i + n then
        m (src + (x - dest)) else m x := by
  induction n generalizing i m with
  | zero => rw [memcpyLoop, if_neg (by omega)]
  | succ n ih =>
      rw [memcpyLoop, ih (i + 1) _ (by omega)
        (fun j k hj hjk hk => hapart j k (by omega) hjk (by omega))]
      have hx := eq_offset_iff dest x (i := i) (by omega)
      by_cases hxi : (x - dest).toNat = i
      · have hoff : x - dest = BitVec.ofNat 64 i := by
          rw [hx.mpr hxi, offset_sub]
        rw [if_neg (by omega), if_pos (by omega), hoff, hx.mpr hxi,
          Memory.poke_self]
      · have hne : ¬ x = dest + BitVec.ofNat 64 i := fun h => hxi (hx.mp h)
        have hrange : (i + 1 ≤ (x - dest).toNat ∧ (x - dest).toNat < i + 1 + n) ↔
            (i ≤ (x - dest).toNat ∧ (x - dest).toNat < i + (n + 1)) := by omega
        rw [Memory.poke_ne m _ hne]
        simp only [hrange]
        split
        · next hin' =>
            -- the byte still to be read lies outside what was just written
            apply Memory.poke_ne
            have hk : x - dest = BitVec.ofNat 64 (x - dest).toNat := by
              rw [BitVec.ofNat_toNat, BitVec.setWidth_eq]
            rw [hk]
            exact (hapart i _ (Nat.le_refl _) (by omega) (by omega)).symm
        · rfl

/-- The loop may be cut anywhere. -/
theorem memcpyLoop_add (dest src : Ptr) (a b i : Nat) (m : Memory) :
    memcpyLoop dest src (a + b) i m =
      memcpyLoop dest src b (i + a) (memcpyLoop dest src a i m) := by
  induction a generalizing i m with
  | zero => rw [Nat.zero_add, Nat.add_zero, memcpyLoop]
  | succ a ih =>
      have hcount : a + 1 + b = a + b + 1 := by omega
      have hstart : i + (a + 1) = i + 1 + a := by omega
      rw [hcount, hstart, memcpyLoop, ih, memcpyLoop]

/-- Wherever it reads from, `memcpy` writes in its destination only. -/
theorem memcpy_out (m : Memory) (dest src : Ptr) {n : BitVec 64} {x : Ptr}
    (hx : ¬ InRange dest n.toNat x) : memcpy m dest src n x = m x := by
  have hloop : ∀ (k i : Nat) (m : Memory), i + k ≤ n.toNat →
      memcpyLoop dest src k i m x = m x := by
    intro k
    induction k with
    | zero => exact fun _ _ _ => rfl
    | succ k ih =>
        intro i m hik
        rw [memcpyLoop, ih (i + 1) _ (by omega)]
        apply Memory.poke_ne
        rintro rfl
        exact hx (inRange_add dest (by omega) (by have := n.isLt; omega))
  exact hloop _ 0 m (by omega)

/-- Between ranges without a common byte `memcpy` copies what `src` held. -/
theorem memcpy_eq_copy (m : Memory) (dest src : Ptr) (n : BitVec 64)
    (hapart : ∀ x, InRange dest n.toNat x → ¬ InRange src n.toNat x) :
    memcpy m dest src n = m.copy dest src n.toNat := by
  have hn := n.isLt
  funext x
  rw [memcpy, memcpyLoop_apply dest src _ 0 m (by omega), Memory.copy]
  · simp only [InRange, Nat.zero_le, true_and, Nat.zero_add]
    rfl
  · intro j k _ hjk hk heq
    have hdest := inRange_add dest (d := j) (n := n.toNat) (by omega) (by omega)
    have hsrc := inRange_add src (d := k) (n := n.toNat) (by omega) (by omega)
    rw [heq] at hdest
    exact hapart _ hdest hsrc

end Asnu
