import Asnu.Pmm.Blocks

/-!
Both allocators are one first-fit search: the lowest frame whose bit is clear is
taken, whatever the size asked for, and nothing but that bit is written.
-/

namespace Asnu

open Lib

namespace Pmm

/-- Bit `k` is the lowest clear one. -/
def LeastClear (s : Pmm) (k : Nat) : Prop :=
  k < s.bitCount ∧ s.bit k = false ∧ ∀ j < k, s.bit j = true

/-- `t` is `s` with bit `k` set: the other bits are the same, also those of the
same byte, and so are all other bytes. -/
structure SetsBit (s t : Pmm) (k : Nat) : Prop where
  file : t.file = s.file
  bit : ∀ j < 2 ^ 64, t.bit j = if j = k then true else s.bit j
  byte : ∀ x, x ≠ Bitmap.slot s.file.bitmapBase k → t.mem x = s.mem x

theorem setsBit_mark (s : Pmm) {k : Nat} (hk : k < 2 ^ 64) : s.SetsBit (s.mark k) k where
  file := rfl
  bit := fun _ hj => s.bit_mark hk hj
  byte := fun _ hx => Bitmap.set_out _ hx

theorem frame_eq (s : Pmm) (k : Nat) :
    s.frame k = s.file.base + BitVec.ofNat 64 (4096 * k) := by
  have hmul : BitVec.ofNat 64 k * 4096#64 = BitVec.ofNat 64 (4096 * k) := by
    rw [Nat.mul_comm, BitVec.ofNat_mul]
  rw [frame, hmul]

/-- The bound of the loops, when it fits in 64 bits. -/
theorem bitCount_eq {s : Pmm} (h : s.file.bitmapLength.toNat < 2 ^ 61) :
    s.bitCount = 8 * s.file.bitmapLength.toNat := by
  rw [bitCount, BitVec.toNat_mul, BitVec.toNat_ofNat]
  omega

end Pmm

theorem palloc_least {s : Pmm} {k : Nat} (h : s.LeastClear k) :
    palloc s = (s.frame k, s.mark k) := by
  rw [palloc_eq, Pmm.firstFree_eq_some.mpr h]

theorem palloc_full {s : Pmm} (h : ∀ k < s.bitCount, s.bit k = true) :
    palloc s = (NULL, s) := by
  rw [palloc_eq, Pmm.firstFree_eq_none.mpr h]

/-- For every request of at most a page, on every state, `kalloc` does what `palloc`
does: it takes the frame of the least clear bit, or fails and changes nothing. -/
theorem first_fit (s : Pmm) (size : BitVec 64) (hpos : 0#64 < size)
    (hpage : size ≤ 4096#64) :
    kalloc s size = palloc s ∧
    (∀ k, s.LeastClear k →
      (kalloc s size).1 = s.file.base + BitVec.ofNat 64 (4096 * k) ∧
      s.SetsBit (kalloc s size).2 k ∧
      (palloc s).1 = s.file.base + BitVec.ofNat 64 (4096 * k) ∧
      s.SetsBit (palloc s).2 k) ∧
    ((∀ k < s.bitCount, s.bit k = true) →
      kalloc s size = (NULL, s) ∧ palloc s = (NULL, s)) ∧
    (s.file.bitmapLength.toNat < 2 ^ 61 → s.bitCount = 8 * s.file.bitmapLength.toNat) := by
  have hsize : size ≠ 0#64 := by
    rintro rfl
    exact BitVec.lt_irrefl _ hpos
  have hsame := kalloc_eq_palloc s hsize
  refine ⟨hsame, fun k hk => ?_, fun hfull => ?_, Pmm.bitCount_eq⟩
  · have hcount := s.bitCount_lt
    have hmark := s.setsBit_mark (k := k) (by have := hk.1; omega)
    rw [hsame, palloc_least hk]
    exact ⟨s.frame_eq k, hmark, s.frame_eq k, hmark⟩
  · rw [hsame]
    exact ⟨palloc_full hfull, palloc_full hfull⟩

theorem first_fit_eightFrames :
    let s := (palloc eightFrames).2
    kalloc s 100#64 = palloc s ∧ (palloc s).1 = 0x100000#64 + BitVec.ofNat 64 (4096 * 1) := by
  have hfit := first_fit (palloc eightFrames).2 100#64 (by decide) (by decide)
  exact ⟨hfit.1, (hfit.2.1 1 ⟨by decide +kernel, by decide +kernel, by decide +kernel⟩).2.2.1⟩

end Asnu
