import Asnu.Pmm.Blocks

/-!
Exact accounts. When the region does not wrap and the bitmap lies outside the
frames it has bits for, the bit of a frame of the region is set exactly while
the frame is handed out. Past the end of the region this fails: `kfree` turns
such frames away, and their bits stay set.
-/

namespace Asnu

open Lib

namespace Pmm

/-- The region does not wrap, starts above address 0, and no frame with a bit
holds a byte of the bitmap. -/
structure Laid (s : Pmm) : Prop where
  base_ne : s.file.base ≠ 0#64
  no_wrap : s.file.base.toNat + s.file.length.toNat < 2 ^ 64
  apart : ∀ i < s.bitCount, s.MissesBitmap (s.frame i)

theorem Laid.of_file_eq {s t : Pmm} (h : s.Laid) (hfile : t.file = s.file) : t.Laid where
  base_ne := by
    rw [hfile]
    exact h.base_ne
  no_wrap := by
    rw [hfile]
    exact h.no_wrap
  apart := by
    intro i hi
    rw [Ledger.bitCount_of_file_eq hfile] at hi
    rw [frame_of_file_eq hfile]
    exact (h.apart i hi).of_file_eq hfile

section Region

variable {s : Pmm} (h : s.Laid) {i : Nat} (hregion : i * 4096 < s.file.length.toNat)
include h hregion

/-- A frame that starts in the region has the address one expects. -/
theorem Laid.frame_toNat : (s.frame i).toNat = s.file.base.toNat + i * 4096 := by
  have hwrap := h.no_wrap
  rw [s.frame_toNat, Nat.mod_eq_of_lt (by omega)]

theorem Laid.frame_ne_null : s.frame i ≠ NULL := by
  intro hnull
  have hframe := h.frame_toNat hregion
  have hbase : s.file.base.toNat ≠ 0 := fun hzero =>
    h.base_ne (BitVec.eq_of_toNat_eq hzero)
  rw [hnull] at hframe
  have hzero : NULL.toNat = 0 := rfl
  omega

/-- `kfree` accepts it. -/
theorem Laid.kfree_frame : kfree s (s.frame i) = release s (s.frame i) := by
  have hframe := h.frame_toNat hregion
  have hwrap := h.no_wrap
  have hend : (s.file.base + s.file.length).toNat =
      s.file.base.toNat + s.file.length.toNat := by
    rw [BitVec.toNat_add, Nat.mod_eq_of_lt hwrap]
  apply kfree_eq_release (h.frame_ne_null hregion)
  · rw [BitVec.le_def, hframe]
    exact Nat.le_add_right _ _
  · rw [BitVec.lt_def, hframe, hend]
    omega

/-- So freeing it clears its bit. -/
theorem Laid.bit_kfree_self (hs : s.Sized) (hi : i < s.bitCount) :
    (kfree s (s.frame i)).bit i = false := by
  have hcount := hs.bitCount_le
  obtain ⟨k, hk, hslot⟩ := slot_eq_byte s hi
  have hout := h.apart i hi k hk
  rw [← hslot] at hout
  rw [h.kfree_frame hregion, bit_release s _ (by omega) hout, s.frame_index (by omega),
    if_pos ⟨rfl, hi⟩]

end Region

/-- `pmm_init` leaves no bit set. -/
theorem bit_pmmInit (m : Memory) (base length bitmapBase spare : BitVec 64) {i : Nat}
    (hi : i < (pmmInit m base length bitmapBase spare).bitCount) :
    (pmmInit m base length bitmapBase spare).bit i = false := by
  obtain ⟨k, hk, hslot⟩ := slot_eq_byte _ hi
  have hzero : (pmmInit m base length bitmapBase spare).mem
      (bitmapBase + BitVec.ofNat 64 k) = 0#8 := by
    simp only [pmmInit, memset_eq_fill]
    exact Memory.fill_in _ _ (inRange_add bitmapBase hk (Nat.le_of_lt (BitVec.isLt _)))
  rw [Pmm.bit, Bitmap.bit, hslot]
  change ((pmmInit m base length bitmapBase spare).mem
    (bitmapBase + BitVec.ofNat 64 k)).getLsbD (i % 8) = false
  rw [hzero, BitVec.getLsbD_zero]

end Pmm

namespace Ledger

/-- The block at `ptr` was handed out and not freed since. -/
def Holds (l : Ledger) (ptr : Ptr) : Prop := ∃ b ∈ l.live, b.ptr = ptr

/-- Every set bit of a frame of the region is accounted for by a live block. -/
structure Exact (l : Ledger) : Prop where
  held : l.Held
  laid : l.pmm.Laid
  counted : ∀ i < l.pmm.bitCount, i * 4096 < l.pmm.file.length.toNat →
    l.pmm.bit i = true → l.Holds (l.pmm.frame i)

theorem exact_start {s : Pmm} (hsized : s.Sized) (hlaid : s.Laid)
    (hclear : ∀ i < s.bitCount, s.bit i = false) : (start s).Exact where
  held := held_start hsized
  laid := hlaid
  counted := by
    intro i hi _ hbit
    rw [start, hclear i hi] at hbit
    exact Bool.noConfusion hbit

/-- What an allocator returns for the outcome of the search is not held. -/
theorem Held.not_holds_found {l : Ledger} (h : l.Held) :
    (match l.pmm.firstFree with
      | some i => (l.pmm.frame i, l.pmm.mark i)
      | none => (NULL, l.pmm)).1 ≠ NULL →
    ¬ l.Holds (match l.pmm.firstFree with
      | some i => (l.pmm.frame i, l.pmm.mark i)
      | none => (NULL, l.pmm)).1 := by
  cases hfree : l.pmm.firstFree with
  | none => exact fun hnull => absurd rfl hnull
  | some i =>
      rintro _ ⟨b, hb, hptr⟩
      exact h.ptr_ne_free hfree hb hptr

namespace Exact

variable {l : Ledger} (h : l.Exact)
include h

theorem bit_iff {i : Nat} (hi : i < l.pmm.bitCount)
    (hregion : i * 4096 < l.pmm.file.length.toNat) :
    l.pmm.bit i = true ↔ l.Holds (l.pmm.frame i) := by
  refine ⟨h.counted i hi hregion, ?_⟩
  rintro ⟨b, hb, hptr⟩
  have hcount := h.held.sized.bitCount_le
  obtain ⟨j, hj, hptr', hset⟩ := h.held.owned b hb
  rw [l.pmm.frame_inj (by omega) (by omega) (hptr.symm.trans hptr')]
  exact hset

theorem grant {i : Nat} (size : Nat) (hfree : l.pmm.firstFree = some i) :
    (l.grant (l.pmm.frame i, l.pmm.mark i) size).Exact where
  held := h.held.grant size hfree
  laid := h.laid.of_file_eq rfl
  counted := by
    intro j hj hregion hbit
    have hi := (Pmm.firstFree_eq_some.mp hfree).1
    rw [Ledger.grant, h.held.sized.bit_mark hi hj] at hbit
    by_cases hji : j = i
    · have hnull := h.laid.frame_ne_null (hji ▸ hregion)
      refine ⟨⟨l.pmm.frame i, size⟩, ?_, by rw [hji]; rfl⟩
      rw [Ledger.grant, if_neg hnull]
      exact List.mem_cons_self
    · rw [if_neg hji] at hbit
      obtain ⟨b, hb, hptr⟩ := h.counted j hj hregion hbit
      refine ⟨b, ?_, hptr⟩
      simp only [Ledger.grant]
      split
      · exact hb
      · exact List.mem_cons_of_mem _ hb

theorem kfree {ptr : Ptr} (hlive : ∃ b ∈ l.live, b.ptr = ptr) :
    (l.exec (.kfree ptr)).Exact := by
  have hfile := kfree_file l.pmm ptr
  obtain ⟨c, hc, hcptr⟩ := hlive
  obtain ⟨i, hi, hptr, _⟩ := h.held.owned c hc
  have hmiss := h.laid.apart i hi
  have hframe : ptr = l.pmm.frame i := hcptr.symm.trans hptr
  refine ⟨h.held.kfree ⟨c, hc, hcptr⟩ (hframe ▸ hmiss), h.laid.of_file_eq hfile, ?_⟩
  intro j hj hregion hbit
  rw [exec, bitCount_of_file_eq hfile] at hj
  rw [exec, hfile] at hregion
  rw [exec, hframe] at hbit
  by_cases hji : j = i
  · rw [hji] at hbit hregion
    rw [h.laid.bit_kfree_self hregion h.held.sized hi] at hbit
    exact Bool.noConfusion hbit
  · rw [h.held.sized.bit_kfree hi hj hji hmiss] at hbit
    obtain ⟨b, hb, hbptr⟩ := h.counted j hj hregion hbit
    have hne : b.ptr ≠ ptr := by
      rw [hbptr, hframe]
      have hcount := h.held.sized.bitCount_le
      exact fun heq => hji (l.pmm.frame_inj (by omega) (by omega) heq)
    refine ⟨b, (List.mem_eraseP_of_neg (by simpa using hne)).mpr hb, ?_⟩
    rw [exec, Pmm.frame_of_file_eq hfile, hbptr]

theorem step {t : Ledger} {c : Call} (hstep : l.Step c t) : t.Exact := by
  obtain ⟨hallowed, rfl⟩ := hstep
  by_cases hc : ∃ ptr, c = .kfree ptr
  · obtain ⟨ptr, rfl⟩ := hc
    exact h.kfree hallowed
  · rcases l.exec_alloc (fun ptr heq => hc ⟨ptr, heq⟩) with
      hsame | ⟨i, size, hfree, hexec⟩
    · rw [hsame]
      exact h
    · rw [hexec]
      exact h.grant size hfree

/-- The search fails, or stops at a frame that is reported as NULL, only when
every frame of the region is taken. -/
theorem all_held (hnull : ∀ k, l.pmm.firstFree = some k → l.pmm.frame k = NULL) {i : Nat}
    (hi : i < l.pmm.bitCount) (hregion : i * 4096 < l.pmm.file.length.toNat) :
    l.Holds (l.pmm.frame i) := by
  apply h.counted i hi hregion
  cases hfree : l.pmm.firstFree with
  | none => exact Pmm.firstFree_eq_none.mp hfree i hi
  | some k =>
      obtain ⟨_, _, hleast⟩ := Pmm.firstFree_eq_some.mp hfree
      apply hleast i
      by_contra hki
      have hregion' : k * 4096 < l.pmm.file.length.toNat :=
        Nat.lt_of_le_of_lt (Nat.mul_le_mul_right _ (Nat.le_of_not_lt hki)) hregion
      exact h.laid.frame_ne_null hregion' (hnull k hfree)

end Exact

end Ledger

/-- In every state a run reaches the bit of a frame of the region is set exactly
while the frame is held, an allocation fails only when all of them are held, and
none is handed out again while it is held. -/
theorem frame_accounting_exact (m : Memory) (base length bitmapBase spare : BitVec 64)
    (hbase : base ≠ 0#64) (hwrap : base.toNat + length.toNat < 2 ^ 64)
    (hapart : ∀ i < (pmmInit m base length bitmapBase spare).bitCount,
      (pmmInit m base length bitmapBase spare).MissesBitmap
        (base + BitVec.ofNat 64 i * 4096#64))
    (calls : List Call) (t : Ledger)
    (hrun : Run Ledger.Step (Ledger.start (pmmInit m base length bitmapBase spare))
      calls t) :
    (∀ i < t.pmm.bitCount, i * 4096 < length.toNat →
      (t.pmm.bit i = true ↔ t.Holds (base + BitVec.ofNat 64 i * 4096#64))) ∧
    ((palloc t.pmm).1 = NULL → ∀ i < t.pmm.bitCount, i * 4096 < length.toNat →
      t.Holds (base + BitVec.ofNat 64 i * 4096#64)) ∧
    (∀ size ≠ 0#64, (kalloc t.pmm size).1 = NULL →
      ∀ i < t.pmm.bitCount, i * 4096 < length.toNat →
        t.Holds (base + BitVec.ofNat 64 i * 4096#64)) ∧
    ((palloc t.pmm).1 ≠ NULL → ¬ t.Holds (palloc t.pmm).1) ∧
    (∀ size, (kalloc t.pmm size).1 ≠ NULL → ¬ t.Holds (kalloc t.pmm size).1) := by
  have hany : Run Ledger.AnyStep (Ledger.start (pmmInit m base length bitmapBase spare))
      calls t := hrun.mono (fun _ _ _ hstep => hstep.2)
  have hfile : t.pmm.file = (pmmInit m base length bitmapBase spare).file :=
    Ledger.run_file hany
  have hlaid : (pmmInit m base length bitmapBase spare).Laid := ⟨hbase, hwrap, hapart⟩
  have h : t.Exact := hrun.invariant Ledger.Exact (fun _ _ _ hl hstep => hl.step hstep)
    (Ledger.exact_start (pmmInit_sized m base length bitmapBase spare) hlaid
      (fun i hi => Pmm.bit_pmmInit m base length bitmapBase spare hi))
  have hframe : ∀ i, t.pmm.frame i = base + BitVec.ofNat 64 i * 4096#64 := fun i =>
    Pmm.frame_of_file_eq hfile i
  have hlength : t.pmm.file.length = length := by rw [hfile]; rfl
  simp only [← hframe, ← hlength]
  have hpalloc := palloc_eq t.pmm
  refine ⟨fun i hi hregion => h.bit_iff hi hregion, fun hnull i hi hregion => ?_,
    fun size hsize hnull i hi hregion => ?_, ?_, fun size => ?_⟩
  · apply h.all_held _ hi hregion
    intro k hk
    rw [hpalloc, hk] at hnull
    exact hnull
  · apply h.all_held _ hi hregion
    intro k hk
    rw [kalloc_eq t.pmm hsize, hk] at hnull
    exact hnull
  · rw [hpalloc]
    exact h.held.not_holds_found
  · by_cases hsize : size = 0#64
    · simp [kalloc, hsize]
    · rw [kalloc_eq t.pmm hsize]
      exact h.held.not_holds_found

theorem frame_accounting_exact_eightFrames :
    let t := (((Ledger.start eightFrames).exec (.kalloc 5000#64)).exec .palloc).exec
      (.kfree 0x100000#64)
    ∀ i < t.pmm.bitCount, i * 4096 < 0x8000 → (t.pmm.bit i = true ↔
      t.Holds (0x100000#64 + BitVec.ofNat 64 i * 4096#64)) :=
  (frame_accounting_exact (fun _ => 0#8) 0x100000#64 0x8000#64 0x200000#64 16#64
    (by decide) (by decide) (by decide +kernel)
    [.kalloc 5000#64, .palloc, .kfree 0x100000#64] _
    (Run.cons ⟨trivial, rfl⟩ (Run.cons ⟨trivial, rfl⟩
      (Run.cons ⟨by decide +kernel, rfl⟩ (Run.nil _))))).1

end Asnu
