import Asnu.Pmm.Allocator

/-!
The geometry of the managed region. After `pmm_init` the bitmap has at most
`2 ^ 52` bits, so the frames `base + i * 4096` are pairwise at least a page
apart modulo `2 ^ 64`, and `kfree` gets back the index it was given.
-/

namespace Asnu

open Lib

namespace Pmm

/-- The length of the bitmap is the one `pmm_init` computes. -/
def Sized (s : Pmm) : Prop :=
  s.file.bitmapLength = (s.file.length / 4096#64 + 7#64) / 8#64

theorem Sized.of_file_eq {s t : Pmm} (h : s.Sized) (hfile : t.file = s.file) :
    t.Sized := by
  unfold Sized at *
  rw [hfile]
  exact h

theorem Sized.bitCount_eq {s : Pmm} (h : s.Sized) :
    s.bitCount = (s.file.length.toNat / 4096 + 7) / 8 * 8 := by
  have hlen := s.file.length.isLt
  unfold bitCount
  rw [h]
  simp only [BitVec.toNat_mul, BitVec.toNat_udiv, BitVec.toNat_add,
    BitVec.toNat_ofNat, Nat.reducePow, Nat.reduceMod]
  omega

theorem Sized.bitCount_le {s : Pmm} (h : s.Sized) : s.bitCount ≤ 2 ^ 52 := by
  have hlen := s.file.length.isLt
  rw [h.bitCount_eq]
  omega

theorem frame_of_file_eq {s t : Pmm} (hfile : t.file = s.file) (i : Nat) :
    t.frame i = s.frame i := by
  rw [frame, frame, hfile]

theorem frame_toNat (s : Pmm) (i : Nat) :
    (s.frame i).toNat = (s.file.base.toNat + i * 4096) % 2 ^ 64 := by
  simp only [frame, BitVec.toNat_add, BitVec.toNat_mul, BitVec.toNat_ofNat]
  omega

theorem frame_sub_base (s : Pmm) {i : Nat} (hi : i < 2 ^ 52) :
    (s.frame i - s.file.base).toNat = i * 4096 := by
  have hframe := s.frame_toNat i
  bv_omega

theorem frame_inj (s : Pmm) {i j : Nat} (hi : i < 2 ^ 52) (hj : j < 2 ^ 52)
    (h : s.frame i = s.frame j) : i = j := by
  have hfi := s.frame_sub_base hi
  have hfj := s.frame_sub_base hj
  rw [h] at hfi
  omega

/-- Different frames are at least a page apart, as integers. -/
theorem frame_apart (s : Pmm) {i j : Nat} (hi : i < 2 ^ 52) (hj : j < 2 ^ 52)
    (h : i ≠ j) :
    (s.frame i).toNat + 4096 ≤ (s.frame j).toNat ∨
      (s.frame j).toNat + 4096 ≤ (s.frame i).toNat := by
  have hfi := s.frame_toNat i
  have hfj := s.frame_toNat j
  have hbase := s.file.base.isLt
  omega

/-- `kfree` turns the address of a frame back into its index. -/
theorem frame_index (s : Pmm) {i : Nat} (hi : i < 2 ^ 52) :
    ((s.frame i - s.file.base) / 4096#64).toNat = i := by
  have hsub := s.frame_sub_base hi
  rw [BitVec.toNat_udiv, hsub, BitVec.toNat_ofNat, Nat.mod_eq_of_lt (by decide),
    Nat.mul_div_cancel _ (by decide)]

end Pmm

theorem bit_bitmapClearBit (s : Pmm) (index : BitVec 64) {j : Nat}
    (hj : j < 2 ^ 64) :
    (bitmapClearBit s index).bit j =
      if j = index.toNat ∧ j < s.bitCount then false else s.bit j := by
  have hcount : s.bitCount = (s.file.bitmapLength * 8#64).toNat := rfl
  unfold bitmapClearBit
  split
  · next hge =>
      have hge' : s.bitCount ≤ index.toNat := hge
      rw [if_neg (by omega)]
  · next hlt =>
      have hlt' : index.toNat < s.bitCount := by
        rw [hcount]
        exact BitVec.not_le.mp hlt
      rw [Pmm.bit, Bitmap.bit_clear _ _ index.isLt hj]
      by_cases hji : j = index.toNat
      · rw [if_pos hji, if_pos ⟨hji, by omega⟩]
      · rw [if_neg hji, if_neg (fun h => hji h.1), Pmm.bit]

/-- A release whose zeroing misses the bitmap clears the bit of the frame and
no other. -/
theorem bit_release (s : Pmm) (ptr : Ptr) {j : Nat} (hj : j < 2 ^ 64)
    (hout : ¬ InRange ptr 4096 (Bitmap.slot s.file.bitmapBase j)) :
    (release s ptr).bit j =
      if j = ((ptr - s.file.base) / 4096#64).toNat ∧ j < s.bitCount then false
      else s.bit j := by
  rw [← bit_bitmapClearBit s _ hj]
  apply Bitmap.bit_congr
  have hfile := bitmapClearBit_file s ((ptr - s.file.base) / 4096#64)
  simp only [release, hfile]
  exact Memory.fill_out _ _ hout

/-- `kfree` writes the page it is given and one byte of the bitmap. -/
theorem kfree_out (s : Pmm) {ptr x : Ptr} (hx : ¬ InRange ptr 4096 x)
    (hrecords : ∀ j < s.bitCount, x ≠ Bitmap.slot s.file.bitmapBase j) :
    (kfree s ptr).mem x = s.mem x := by
  rcases kfree_cases s ptr with hsame | ⟨_, _, _, hrelease⟩
  · rw [hsame]
  · have hclear : (bitmapClearBit s ((ptr - s.file.base) / 4096#64)).mem x = s.mem x := by
      unfold bitmapClearBit
      split
      · rfl
      · next hlt => exact Bitmap.clear_out _ (hrecords _ (BitVec.not_le.mp hlt))
    rw [hrelease, ← hclear]
    exact Memory.fill_out _ _ hx

/-- The slot of a bit below the bound is one of the bitmap's bytes. -/
theorem slot_eq_byte (s : Pmm) {j : Nat} (hj : j < s.bitCount) :
    ∃ k < s.file.bitmapLength.toNat,
      Bitmap.slot s.file.bitmapBase j = s.file.bitmapBase + BitVec.ofNat 64 k := by
  refine ⟨j / 8, ?_, rfl⟩
  unfold Pmm.bitCount at hj
  rw [BitVec.toNat_mul, BitVec.toNat_ofNat] at hj
  omega

namespace Pmm

theorem Sized.bit_mark {s : Pmm} (h : s.Sized) {i j : Nat} (hi : i < s.bitCount)
    (hj : j < s.bitCount) : (s.mark i).bit j = if j = i then true else s.bit j := by
  have hcount := h.bitCount_le
  exact s.bit_mark (by omega) (by omega)

/-- The page at `ptr` holds no byte of the bitmap. -/
def MissesBitmap (s : Pmm) (ptr : Ptr) : Prop :=
  ∀ k < s.file.bitmapLength.toNat,
    ¬ InRange ptr 4096 (s.file.bitmapBase + BitVec.ofNat 64 k)

instance (s : Pmm) (ptr : Ptr) : Decidable (s.MissesBitmap ptr) :=
  inferInstanceAs (Decidable (∀ k < s.file.bitmapLength.toNat,
    ¬ InRange ptr 4096 (s.file.bitmapBase + BitVec.ofNat 64 k)))

/-- Freeing a frame clears its bit at most. -/
theorem Sized.bit_kfree {s : Pmm} (h : s.Sized) {i j : Nat} (hi : i < s.bitCount)
    (hj : j < s.bitCount) (hji : j ≠ i) (hmiss : s.MissesBitmap (s.frame i)) :
    (kfree s (s.frame i)).bit j = s.bit j := by
  have hcount := h.bitCount_le
  rcases kfree_cases s (s.frame i) with hsame | ⟨_, _, _, hrelease⟩
  · rw [hsame]
  · obtain ⟨k, hk, hslot⟩ := slot_eq_byte s hj
    have hout := hmiss k hk
    rw [← hslot] at hout
    rw [hrelease, bit_release s _ (by omega) hout, s.frame_index (by omega),
      if_neg (fun heq => hji heq.1)]

/-- The bits are those of the bytes of the bitmap. -/
theorem bit_of_bytes_eq {s t : Pmm} (hfile : t.file = s.file)
    (hbytes : ∀ k < s.file.bitmapLength.toNat,
      t.mem (s.file.bitmapBase + BitVec.ofNat 64 k) =
        s.mem (s.file.bitmapBase + BitVec.ofNat 64 k)) {j : Nat} (hj : j < s.bitCount) :
    t.bit j = s.bit j := by
  obtain ⟨k, hk, hslot⟩ := slot_eq_byte s hj
  rw [bit, bit, hfile]
  apply Bitmap.bit_congr
  rw [hslot]
  exact hbytes k hk

theorem MissesBitmap.of_file_eq {s t : Pmm} {p : Ptr} (h : s.MissesBitmap p)
    (hfile : t.file = s.file) : t.MissesBitmap p := by
  rw [MissesBitmap, hfile]
  exact h

/-- No byte of such a page holds a bit. -/
theorem MissesBitmap.ne_slot {s : Pmm} {p x : Ptr} (h : s.MissesBitmap p)
    (hx : InRange p 4096 x) {j : Nat} (hj : j < s.bitCount) :
    x ≠ Bitmap.slot s.file.bitmapBase j := by
  rintro rfl
  obtain ⟨k, hk, hslot⟩ := slot_eq_byte s hj
  rw [hslot] at hx
  exact h k hk hx

/-- Different frames have no byte in common. -/
theorem frame_inRange_apart (s : Pmm) {i j : Nat} (hi : i < 2 ^ 52) (hj : j < 2 ^ 52)
    (hij : i ≠ j) {x : Ptr} (hx : InRange (s.frame i) 4096 x) :
    ¬ InRange (s.frame j) 4096 x := by
  have hfi := s.frame_sub_base hi
  have hfj := s.frame_sub_base hj
  unfold InRange at *
  bv_omega

end Pmm

theorem pmmInit_sized (m : Memory) (base length bitmapBase spare : BitVec 64) :
    (pmmInit m base length bitmapBase spare).Sized := rfl

end Asnu
