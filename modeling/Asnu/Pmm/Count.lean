import Asnu.Pmm.Exact

/-!
How many frames are left. Where every bit of the bitmap stands for a frame of the
region, the clear bits and the blocks held together make up the region.
-/

namespace Asnu

open Lib

namespace Pmm

/-- The clear bits of the bitmap. -/
def freeFrames (s : Pmm) : Nat := (List.range s.bitCount).countP (fun i => !s.bit i)

/-- No bit stands for a frame past the end of the region. -/
def Whole (s : Pmm) : Prop := ∀ i < s.bitCount, i * 4096 < s.file.length.toNat

theorem Whole.of_file_eq {s t : Pmm} (h : s.Whole) (hfile : t.file = s.file) : t.Whole := by
  intro i hi
  rw [Ledger.bitCount_of_file_eq hfile] at hi
  rw [hfile]
  exact h i hi

theorem freeFrames_eq_zero_iff (s : Pmm) : s.freeFrames = 0 ↔ s.firstFree = none := by
  rw [freeFrames, List.countP_eq_zero, firstFree_eq_none]
  simp

/-- The clear bits are those that are not set. -/
theorem freeFrames_add (s : Pmm) :
    s.freeFrames + ((List.range s.bitCount).filter (fun i => s.bit i)).length = s.bitCount := by
  have hsplit := List.length_eq_countP_add_countP (fun i => s.bit i) (l := List.range s.bitCount)
  rw [List.length_range] at hsplit
  rw [freeFrames, ← List.countP_eq_length_filter]
  simp only [Bool.not_eq_true, Bool.decide_eq_false] at hsplit
  omega

theorem Sized.frame_inj {s : Pmm} (h : s.Sized) {i j : Nat} (hi : i < s.bitCount)
    (hj : j < s.bitCount) (heq : s.frame i = s.frame j) : i = j := by
  have hcount := h.bitCount_le
  exact s.frame_inj (Nat.lt_of_lt_of_le hi hcount) (Nat.lt_of_lt_of_le hj hcount) heq

end Pmm

namespace Ledger

variable {l t : Ledger}

/-- The bits of the bitmap decide. -/
theorem Exact.of_bits (h : l.Exact) (hfile : t.pmm.file = l.pmm.file)
    (hbits : ∀ j < l.pmm.bitCount, t.pmm.bit j = l.pmm.bit j) (hlive : t.live.Perm l.live) :
    t.Exact where
  held := h.held.of_bits hfile hbits hlive
  laid := h.laid.of_file_eq hfile
  counted := by
    intro i hi hregion hbit
    rw [bitCount_of_file_eq hfile] at hi
    rw [hfile] at hregion
    rw [hbits i hi] at hbit
    obtain ⟨b, hb, hptr⟩ := h.counted i hi hregion hbit
    exact ⟨b, hlive.mem_iff.mpr hb, by rw [hptr, Pmm.frame_of_file_eq hfile]⟩

namespace Exact

variable (h : l.Exact) (hwhole : l.pmm.Whole)
include h hwhole

/-- The frames with a set bit are the blocks that are held. -/
theorem set_frames : (((List.range l.pmm.bitCount).filter (fun i => l.pmm.bit i)).map
    l.pmm.frame).Perm (l.live.map Block.ptr) := by
  have hset : ((List.range l.pmm.bitCount).filter (fun i => l.pmm.bit i)).Nodup :=
    List.nodup_range.filter _
  have hframes := hset.map_on (f := l.pmm.frame) (fun i hi j hj heq =>
    h.held.sized.frame_inj (List.mem_range.mp (List.mem_of_mem_filter hi))
      (List.mem_range.mp (List.mem_of_mem_filter hj)) heq)
  have hlive : (l.live.map Block.ptr).Nodup := List.pairwise_map.mpr h.held.distinct
  refine (List.perm_ext_iff_of_nodup hframes hlive).mpr (fun p => ?_)
  constructor
  · intro hp
    obtain ⟨i, hi, rfl⟩ := List.mem_map.mp hp
    obtain ⟨hrange, hbit⟩ := List.mem_filter.mp hi
    have hlt := List.mem_range.mp hrange
    obtain ⟨b, hb, hptr⟩ := h.counted i hlt (hwhole i hlt) hbit
    exact List.mem_map.mpr ⟨b, hb, hptr⟩
  · intro hp
    obtain ⟨b, hb, rfl⟩ := List.mem_map.mp hp
    obtain ⟨i, hi, hptr, hbit⟩ := h.held.owned b hb
    exact List.mem_map.mpr ⟨i, List.mem_filter.mpr ⟨List.mem_range.mpr hi, hbit⟩, hptr.symm⟩

theorem count : l.pmm.freeFrames + l.live.length = l.pmm.bitCount := by
  have hlength := (h.set_frames hwhole).length_eq
  rw [List.length_map, List.length_map] at hlength
  rw [← hlength]
  exact l.pmm.freeFrames_add

/-- `palloc` fails when no frame is left, and then only. -/
theorem palloc_eq_null_iff : (palloc l.pmm).1 = NULL ↔ l.pmm.freeFrames = 0 := by
  rw [Pmm.freeFrames_eq_zero_iff, palloc_eq]
  cases hfree : l.pmm.firstFree with
  | none => exact iff_of_true rfl rfl
  | some i =>
      have hi := (Pmm.firstFree_eq_some.mp hfree).1
      have hne := h.laid.frame_ne_null (hwhole i hi)
      exact iff_of_false hne (Option.some_ne_none i)

end Exact

end Ledger

end Asnu
