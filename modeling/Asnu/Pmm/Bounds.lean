import Asnu.Pmm.Blocks

/-!
Which allocations stay inside the managed region. The bitmap is rounded up to
whole bytes, so its last bits stand for frames past the end of the region, and
the size of a request plays no part in the search.
-/

namespace Asnu

open Lib

/-- The bytes `[p, p + n)` lie in `[base, base + length)`, as integers. -/
def Inside (s : Pmm) (p : Ptr) (n : Nat) : Prop :=
  s.file.base.toNat ≤ p.toNat ∧
    p.toNat + n ≤ s.file.base.toNat + s.file.length.toNat

instance (s : Pmm) (p : Ptr) (n : Nat) : Decidable (Inside s p n) :=
  inferInstanceAs (Decidable (_ ∧ _))

namespace Pmm

/-- Every frame the bitmap knows is taken. -/
def Full (s : Pmm) : Prop := ∀ i < s.bitCount, s.bit i = true

/-- Some free frame has `n` bytes of the region from its start on. -/
def RoomFor (s : Pmm) (n : Nat) : Prop :=
  ∃ i < s.bitCount, s.bit i = false ∧ i * 4096 + n ≤ s.file.length.toNat

/-- The lowest free frame has address 0, which a caller reads as failure. -/
def NullNext (s : Pmm) : Prop :=
  ∃ i < s.bitCount, s.bit i = false ∧ (∀ j < i, s.bit j = true) ∧ s.frame i = NULL

/-- A frame `n` bytes of which lie in the region, when the region itself does
not wrap. -/
theorem inside_frame_iff {s : Pmm} {i n : Nat} (hi : i < 2 ^ 52) (hn : 0 < n)
    (hwrap : s.file.base.toNat + s.file.length.toNat ≤ 2 ^ 64) :
    Inside s (s.frame i) n ↔ i * 4096 + n ≤ s.file.length.toNat := by
  have hframe := s.frame_toNat i
  have hbase := s.file.base.isLt
  unfold Inside
  omega

/-- The frame that the search finds lies inside the region exactly when the
state before has room, or reports failure. -/
theorem grant_inside_iff {s : Pmm} (h : s.Sized) {n : Nat} (hn : 0 < n)
    (hwrap : s.file.base.toNat + s.file.length.toNat ≤ 2 ^ 64) :
    (∀ k, s.firstFree = some k → s.frame k ≠ NULL → Inside s (s.frame k) n) ↔
      s.Full ∨ s.RoomFor n ∨ s.NullNext := by
  have hcount := h.bitCount_le
  cases hfree : s.firstFree with
  | none =>
      have hfull : s.Full := Pmm.firstFree_eq_none.mp hfree
      simp [hfull]
  | some k =>
      obtain ⟨hk, hbit, hleast⟩ := Pmm.firstFree_eq_some.mp hfree
      have hinside := inside_frame_iff (s := s) (i := k) (by omega) hn hwrap
      -- no free frame lies below the one found
      have hlow : ∀ i, s.bit i = false → k ≤ i := by
        intro i hi
        by_contra hlt
        rw [hleast i (by omega)] at hi
        exact Bool.noConfusion hi
      constructor
      · intro hall
        by_cases hnull : s.frame k = NULL
        · exact Or.inr (Or.inr ⟨k, hk, hbit, hleast, hnull⟩)
        · exact Or.inr (Or.inl ⟨k, hk, hbit, hinside.mp (hall k rfl hnull)⟩)
      · rintro hcond k' hk' hnull
        obtain rfl : k = k' := by simpa using hk'
        rcases hcond with hfull | ⟨i, _, hi, hroom⟩ | ⟨i, _, hi, hsets, hzero⟩
        · rw [hfull k hk] at hbit
          exact Bool.noConfusion hbit
        · have hki := hlow i hi
          have hstart : k * 4096 ≤ i * 4096 := Nat.mul_le_mul_right _ hki
          exact hinside.mpr (Nat.le_trans (Nat.add_le_add_right hstart n) hroom)
        · have hki := hlow i hi
          have hik : ¬ k < i := by
            intro hlt
            rw [hsets k hlt] at hbit
            exact Bool.noConfusion hbit
          obtain rfl : i = k := by omega
          exact absurd hzero hnull

end Pmm

theorem kalloc_inside_iff {s : Pmm} (h : s.Sized) (size : BitVec 64)
    (hwrap : s.file.base.toNat + s.file.length.toNat ≤ 2 ^ 64) :
    ((kalloc s size).1 ≠ NULL → Inside s (kalloc s size).1 size.toNat) ↔
      size = 0#64 ∨ s.Full ∨ s.RoomFor size.toNat ∨ s.NullNext := by
  by_cases hzero : size = 0#64
  · simp [kalloc, hzero]
  · have hpos : 0 < size.toNat := by
      rcases Nat.eq_zero_or_pos size.toNat with h0 | h0
      · exact absurd (BitVec.eq_of_toNat_eq h0) hzero
      · exact h0
    rw [← Pmm.grant_inside_iff h hpos hwrap, kalloc_eq s hzero]
    cases s.firstFree <;> simp [hzero]

theorem palloc_inside_iff {s : Pmm} (h : s.Sized)
    (hwrap : s.file.base.toNat + s.file.length.toNat ≤ 2 ^ 64) :
    ((palloc s).1 ≠ NULL → Inside s (palloc s).1 4096) ↔
      s.Full ∨ s.RoomFor 4096 ∨ s.NullNext := by
  rw [← Pmm.grant_inside_iff h (by decide) hwrap, palloc_eq s]
  cases s.firstFree <;> simp

/-- In every state a run reaches, both allocators stay inside the region
exactly when some free frame has room, or when they report failure. -/
theorem allocations_inside_iff (m : Memory)
    (base length bitmapBase spare : BitVec 64)
    (hwrap : base.toNat + length.toNat ≤ 2 ^ 64) (calls : List Call) (t : Ledger)
    (hrun : Run Ledger.AnyStep
      (Ledger.start (pmmInit m base length bitmapBase spare)) calls t) :
    (∀ size, ((kalloc t.pmm size).1 ≠ NULL →
        base.toNat ≤ (kalloc t.pmm size).1.toNat ∧
        (kalloc t.pmm size).1.toNat + size.toNat ≤ base.toNat + length.toNat) ↔
      size = 0#64 ∨ t.pmm.Full ∨ t.pmm.RoomFor size.toNat ∨ t.pmm.NullNext) ∧
    (((palloc t.pmm).1 ≠ NULL →
        base.toNat ≤ (palloc t.pmm).1.toNat ∧
        (palloc t.pmm).1.toNat + 4096 ≤ base.toNat + length.toNat) ↔
      t.pmm.Full ∨ t.pmm.RoomFor 4096 ∨ t.pmm.NullNext) := by
  have hfile : t.pmm.file = (pmmInit m base length bitmapBase spare).file :=
    Ledger.run_file hrun
  have hsized : t.pmm.Sized := Ledger.run_sized hrun
  have hbase : t.pmm.file.base = base := by rw [hfile]; rfl
  have hlength : t.pmm.file.length = length := by rw [hfile]; rfl
  have hwrap' : t.pmm.file.base.toNat + t.pmm.file.length.toNat ≤ 2 ^ 64 := by
    rw [hbase, hlength]
    exact hwrap
  constructor
  · intro size
    have hkalloc := kalloc_inside_iff hsized size hwrap'
    rwa [Inside, hbase, hlength] at hkalloc
  · have hpalloc := palloc_inside_iff hsized hwrap'
    rwa [Inside, hbase, hlength] at hpalloc

theorem allocations_inside_iff_eightFrames :
    ((palloc ((Ledger.start eightFrames).exec .palloc).pmm).1 ≠ NULL →
        0x100000 ≤ (palloc ((Ledger.start eightFrames).exec .palloc).pmm).1.toNat ∧
        (palloc ((Ledger.start eightFrames).exec .palloc).pmm).1.toNat + 4096 ≤
          0x100000 + 0x8000) ↔
      ((Ledger.start eightFrames).exec .palloc).pmm.Full ∨
      ((Ledger.start eightFrames).exec .palloc).pmm.RoomFor 4096 ∨
      ((Ledger.start eightFrames).exec .palloc).pmm.NullNext :=
  (allocations_inside_iff (fun _ => 0#8) 0x100000#64 0x8000#64 0x200000#64 16#64
    (by decide) [.palloc] _ (Run.cons rfl (Run.nil _))).2

/-- A region of one page has a bitmap of one byte, and the second `palloc`
returns the page after the region. -/
theorem palloc_leaves_region :
    ¬ ∀ (m : Memory) (base length bitmapBase spare : BitVec 64),
      base.toNat + length.toNat ≤ 2 ^ 64 →
      ∀ (calls : List Call) (t : Ledger),
      Run Ledger.AnyStep (Ledger.start (pmmInit m base length bitmapBase spare)) calls t →
        (∀ size, (kalloc t.pmm size).1 ≠ NULL →
          base.toNat ≤ (kalloc t.pmm size).1.toNat ∧
          (kalloc t.pmm size).1.toNat + size.toNat ≤ base.toNat + length.toNat) ∧
        ((palloc t.pmm).1 ≠ NULL →
          base.toNat ≤ (palloc t.pmm).1.toNat ∧
          (palloc t.pmm).1.toNat + 4096 ≤ base.toNat + length.toNat) := by
  intro hclaim
  have hinside := (hclaim (fun _ => 0#8) 0x100000#64 0x1000#64 0x200000#64 16#64
    (by decide) [.palloc] _ (Run.cons rfl (Run.nil _))).2
  exact absurd hinside (by decide +kernel)

end Asnu
