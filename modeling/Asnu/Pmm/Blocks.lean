import Asnu.Lib.Run
import Asnu.Pmm.Region

/-!
Runs of the allocator as its callers see them. A ledger keeps, next to the
allocator's state, the blocks handed out and not yet freed. It records what
was asked for, not what the bitmap says, so the two can disagree.
-/

namespace Asnu

open Lib

inductive Call where
  | kalloc (size : BitVec 64)
  | palloc
  | kfree (ptr : Ptr)
  deriving DecidableEq, Repr

/-- The bytes `[ptr, ptr + size)` promised to a caller. -/
structure Block where
  ptr : Ptr
  size : Nat
  deriving DecidableEq, Repr

def Block.Disjoint (a b : Block) : Prop :=
  a.ptr.toNat + a.size ≤ b.ptr.toNat ∨ b.ptr.toNat + b.size ≤ a.ptr.toNat

instance (a b : Block) : Decidable (a.Disjoint b) :=
  inferInstanceAs (Decidable (_ ∨ _))

structure Ledger where
  pmm : Pmm
  live : List Block

namespace Ledger

/-- Enter the outcome of an allocation; a NULL result is no block. -/
def grant (l : Ledger) (outcome : Ptr × Pmm) (size : Nat) : Ledger :=
  { pmm := outcome.2
    live := if outcome.1 = NULL then l.live else ⟨outcome.1, size⟩ :: l.live }

def exec (l : Ledger) : Call → Ledger
  | .kalloc size => l.grant (kalloc l.pmm size) size.toNat
  | .palloc => l.grant (palloc l.pmm) 4096
  | .kfree ptr =>
      { pmm := kfree l.pmm ptr
        live := l.live.eraseP (fun b => b.ptr = ptr) }

/-- Only pointers returned earlier and not freed since are given to `kfree`. -/
def Allowed (l : Ledger) : Call → Prop
  | .kalloc _ => True
  | .palloc => True
  | .kfree ptr => ∃ b ∈ l.live, b.ptr = ptr

instance (l : Ledger) : (c : Call) → Decidable (l.Allowed c)
  | .kalloc _ => inferInstanceAs (Decidable True)
  | .palloc => inferInstanceAs (Decidable True)
  | .kfree ptr => inferInstanceAs (Decidable (∃ b ∈ l.live, b.ptr = ptr))

def Step (l : Ledger) (c : Call) (l' : Ledger) : Prop :=
  l.Allowed c ∧ l' = l.exec c

/-- Any call, also a `kfree` of a pointer that was never handed out. -/
def AnyStep (l : Ledger) (c : Call) (l' : Ledger) : Prop := l' = l.exec c

def start (s : Pmm) : Ledger := { pmm := s, live := [] }

/-- The request is for at most one page, and the frame that is zeroed on a
free holds no byte of the bitmap. -/
def WithinFrame (l : Ledger) : Call → Prop
  | .kalloc size => size.toNat ≤ 4096
  | .palloc => True
  | .kfree ptr => ∀ k < l.pmm.file.bitmapLength.toNat,
      ¬ InRange ptr 4096 (l.pmm.file.bitmapBase + BitVec.ofNat 64 k)

instance (l : Ledger) : (c : Call) → Decidable (l.WithinFrame c)
  | .kalloc size => inferInstanceAs (Decidable (size.toNat ≤ 4096))
  | .palloc => inferInstanceAs (Decidable True)
  | .kfree ptr => inferInstanceAs (Decidable (∀ k < l.pmm.file.bitmapLength.toNat,
      ¬ InRange ptr 4096 (l.pmm.file.bitmapBase + BitVec.ofNat 64 k)))

theorem exec_file (l : Ledger) (c : Call) : (l.exec c).pmm.file = l.pmm.file := by
  cases c with
  | kalloc size => exact kalloc_file l.pmm size
  | palloc => exact palloc_file l.pmm
  | kfree ptr => exact kfree_file l.pmm ptr

/-- No call changes the record of the region. -/
theorem run_file {l t : Ledger} {calls : List Call} (hrun : Run AnyStep l calls t) :
    t.pmm.file = l.pmm.file := by
  refine hrun.invariant (fun u => u.pmm.file = l.pmm.file) ?_ rfl
  intro u c v hu hstep
  rw [hstep, exec_file, hu]

theorem run_sized {m : Memory} {base length bitmapBase spare : BitVec 64}
    {calls : List Call} {l : Ledger}
    (hrun : Run AnyStep (start (pmmInit m base length bitmapBase spare)) calls l) :
    l.pmm.Sized :=
  (pmmInit_sized m base length bitmapBase spare).of_file_eq (run_file hrun)

/-- Every live block is one frame whose bit is set, and no two live blocks
are the same frame. -/
structure Accounted (l : Ledger) : Prop where
  sized : l.pmm.Sized
  owned : ∀ b ∈ l.live, ∃ i < l.pmm.bitCount,
    b.ptr = l.pmm.frame i ∧ l.pmm.bit i = true ∧ b.size ≤ 4096
  distinct : l.live.Pairwise (fun a b => a.ptr ≠ b.ptr)

/-- The same without the sizes that were asked for. -/
structure Held (l : Ledger) : Prop where
  sized : l.pmm.Sized
  owned : ∀ b ∈ l.live, ∃ i < l.pmm.bitCount,
    b.ptr = l.pmm.frame i ∧ l.pmm.bit i = true
  distinct : l.live.Pairwise (fun a b => a.ptr ≠ b.ptr)

theorem accounted_iff {l : Ledger} :
    l.Accounted ↔ l.Held ∧ ∀ b ∈ l.live, b.size ≤ 4096 := by
  constructor
  · intro h
    refine ⟨⟨h.sized, fun b hb => ?_, h.distinct⟩, fun b hb => ?_⟩
    · obtain ⟨i, hi, hptr, hbit, _⟩ := h.owned b hb
      exact ⟨i, hi, hptr, hbit⟩
    · obtain ⟨_, _, _, _, hsize⟩ := h.owned b hb
      exact hsize
  · rintro ⟨h, hsize⟩
    refine ⟨h.sized, fun b hb => ?_, h.distinct⟩
    obtain ⟨i, hi, hptr, hbit⟩ := h.owned b hb
    exact ⟨i, hi, hptr, hbit, hsize b hb⟩

theorem bitCount_of_file_eq {s t : Pmm} (hfile : t.file = s.file) :
    t.bitCount = s.bitCount := by
  rw [Pmm.bitCount, Pmm.bitCount, hfile]

theorem held_start {s : Pmm} (h : s.Sized) : (start s).Held where
  sized := h
  owned := by simp [start]
  distinct := List.Pairwise.nil

theorem mem_grant {l : Ledger} {outcome : Ptr × Pmm} {size : Nat} {b : Block}
    (hb : b ∈ (l.grant outcome size).live) :
    (outcome.1 ≠ NULL ∧ b = ⟨outcome.1, size⟩) ∨ b ∈ l.live := by
  simp only [grant] at hb
  split at hb
  · exact Or.inr hb
  · next hnull => exact (List.mem_cons.mp hb).imp_left (fun heq => ⟨hnull, heq⟩)

theorem grant_null (l : Ledger) (size : Nat) :
    l.grant (NULL, l.pmm) size = l := by
  simp [grant]

/-- A call that allocates does nothing, or marks and returns the first free
frame. -/
theorem exec_alloc (l : Ledger) {c : Call} (hc : ∀ ptr, c ≠ .kfree ptr) :
    l.exec c = l ∨ ∃ i size, l.pmm.firstFree = some i ∧
      l.exec c = l.grant (l.pmm.frame i, l.pmm.mark i) size := by
  cases c with
  | kalloc size =>
      by_cases hzero : size = 0#64
      · have hnull : kalloc l.pmm size = (NULL, l.pmm) := by simp [kalloc, hzero]
        exact Or.inl (by rw [exec, hnull, grant_null])
      · rw [exec, kalloc_eq l.pmm hzero]
        cases hfree : l.pmm.firstFree with
        | none => exact Or.inl (grant_null l _)
        | some i => exact Or.inr ⟨i, size.toNat, rfl, rfl⟩
  | palloc =>
      rw [exec, palloc_eq]
      cases hfree : l.pmm.firstFree with
      | none => exact Or.inl (grant_null l _)
      | some i => exact Or.inr ⟨i, 4096, rfl, rfl⟩
  | kfree ptr => exact absurd rfl (hc ptr)

/-- A live block at a free frame would have its bit set. -/
theorem Held.ptr_ne_free {l : Ledger} (h : l.Held) {i : Nat}
    (hfree : l.pmm.firstFree = some i) {b : Block} (hb : b ∈ l.live) :
    b.ptr ≠ l.pmm.frame i := by
  intro heq
  obtain ⟨hi, hbit, _⟩ := Pmm.firstFree_eq_some.mp hfree
  have hcount := h.sized.bitCount_le
  obtain ⟨j, hj, hptr, hset⟩ := h.owned b hb
  have hij := l.pmm.frame_inj (by omega) (by omega) (hptr.symm.trans heq)
  rw [hij, hbit] at hset
  exact Bool.noConfusion hset

/-- The frame found by the search belongs to no live block, so marking it and
entering it keeps the accounts. -/
theorem Held.grant {l : Ledger} (h : l.Held) {i : Nat} (size : Nat)
    (hfree : l.pmm.firstFree = some i) :
    (l.grant (l.pmm.frame i, l.pmm.mark i) size).Held where
  sized := h.sized.of_file_eq rfl
  owned := by
    obtain ⟨hi, _, _⟩ := Pmm.firstFree_eq_some.mp hfree
    intro b hb
    rcases mem_grant hb with ⟨_, rfl⟩ | hb
    · exact ⟨i, hi, rfl, (h.sized.bit_mark hi hi).trans (if_pos rfl)⟩
    · obtain ⟨j, hj, hptr, hset⟩ := h.owned b hb
      exact ⟨j, hj, hptr, by rw [Ledger.grant, h.sized.bit_mark hi hj, hset, ite_self]⟩
  distinct := by
    simp only [Ledger.grant]
    split
    · exact h.distinct
    · exact List.Pairwise.cons (fun b hb => (h.ptr_ne_free hfree hb).symm) h.distinct

theorem ptr_ne_of_mem_eraseP {live : List Block} {ptr : Ptr} {b : Block}
    (hdistinct : live.Pairwise (fun a b => a.ptr ≠ b.ptr))
    (hb : b ∈ live.eraseP (fun c => c.ptr = ptr)) : b.ptr ≠ ptr := by
  induction live with
  | nil => simp at hb
  | cons c rest ih =>
      obtain ⟨hhead, htail⟩ := List.pairwise_cons.mp hdistinct
      by_cases hc : c.ptr = ptr
      · rw [List.eraseP_cons_of_pos (by simpa using hc)] at hb
        exact hc ▸ (hhead b hb).symm
      · rw [List.eraseP_cons_of_neg (by simpa using hc)] at hb
        rcases List.mem_cons.mp hb with rfl | hb
        · exact hc
        · exact ih htail hb

/-- Freeing a live block clears the bit of its frame at most, and no other
live block is that frame. -/
theorem Held.kfree {l : Ledger} (h : l.Held) {ptr : Ptr}
    (hlive : ∃ b ∈ l.live, b.ptr = ptr) (hmiss : l.pmm.MissesBitmap ptr) :
    (l.exec (.kfree ptr)).Held where
  sized := h.sized.of_file_eq (kfree_file l.pmm ptr)
  owned := by
    have hfile := kfree_file l.pmm ptr
    obtain ⟨c, hc, rfl⟩ := hlive
    obtain ⟨i, hi, hptr, _⟩ := h.owned c hc
    intro b hb
    have hne := ptr_ne_of_mem_eraseP h.distinct hb
    obtain ⟨j, hj, hbptr, hset⟩ := h.owned b (List.mem_of_mem_eraseP hb)
    have hji : j ≠ i := by
      rintro rfl
      exact hne (hbptr.trans hptr.symm)
    refine ⟨j, by rw [exec, bitCount_of_file_eq hfile]; exact hj,
      by rw [exec, Pmm.frame_of_file_eq hfile]; exact hbptr, ?_⟩
    rw [hptr] at hmiss
    rw [exec, hptr, h.sized.bit_kfree hi hj hji hmiss, hset]
  distinct := h.distinct.sublist List.eraseP_sublist

/-- One call keeps the frames of live blocks marked and apart. -/
theorem Held.step {l t : Ledger} {c : Call} (h : l.Held) (hstep : l.Step c t)
    (hmiss : ∀ ptr, c = .kfree ptr → l.pmm.MissesBitmap ptr) : t.Held := by
  obtain ⟨hallowed, rfl⟩ := hstep
  by_cases hc : ∃ ptr, c = .kfree ptr
  · obtain ⟨ptr, rfl⟩ := hc
    exact h.kfree hallowed (hmiss ptr rfl)
  · rcases l.exec_alloc (fun ptr heq => hc ⟨ptr, heq⟩) with
      hsame | ⟨i, size, hfree, hexec⟩
    · rw [hsame]
      exact h
    · rw [hexec]
      exact h.grant size hfree

/-- Only the bits and the blocks matter, and not their order. -/
theorem Held.of_bits {l t : Ledger} (h : l.Held) (hfile : t.pmm.file = l.pmm.file)
    (hbits : ∀ j < l.pmm.bitCount, t.pmm.bit j = l.pmm.bit j) (hlive : t.live.Perm l.live) :
    t.Held where
  sized := h.sized.of_file_eq hfile
  owned := by
    intro b hb
    obtain ⟨i, hi, hptr, hbit⟩ := h.owned b (hlive.mem_iff.mp hb)
    exact ⟨i, by rw [bitCount_of_file_eq hfile]; exact hi,
      hptr.trans (Pmm.frame_of_file_eq hfile i).symm, (hbits i hi).trans hbit⟩
  distinct := (hlive.pairwise_iff (fun hne => hne.symm)).mpr h.distinct

/-- A block is granted in front of other blocks or behind them. -/
theorem grant_perm {l t : Ledger} {before : List Block} (hlive : t.live = before ++ l.live)
    (outcome : Ptr × Pmm) (size : Nat) :
    (before ++ (l.grant outcome size).live).Perm (t.grant outcome size).live := by
  by_cases hnull : outcome.1 = NULL
  · simp only [grant, if_pos hnull, hlive]
    exact List.Perm.refl _
  · simp only [grant, if_neg hnull, hlive]
    exact List.perm_middle

theorem accounted_step {l t : Ledger} {c : Call} (h : l.Accounted)
    (hstep : l.Step c t) (hwithin : l.WithinFrame c) : t.Accounted := by
  obtain ⟨hheld, hsize⟩ := accounted_iff.mp h
  have hheld' : t.Held := hheld.step hstep (fun ptr heq => by
    subst heq
    exact hwithin)
  refine accounted_iff.mpr ⟨hheld', fun b hb => ?_⟩
  obtain ⟨_, rfl⟩ := hstep
  cases c with
  | kalloc size =>
      rcases mem_grant hb with ⟨_, rfl⟩ | hb
      · exact hwithin
      · exact hsize b hb
  | palloc =>
      rcases mem_grant hb with ⟨_, rfl⟩ | hb
      · exact Nat.le_refl _
      · exact hsize b hb
  | kfree ptr => exact hsize b (List.mem_of_mem_eraseP hb)

/-- Blocks that keep the accounts are different frames, hence disjoint. -/
theorem Accounted.pairwise_disjoint {l : Ledger} (h : l.Accounted) :
    l.live.Pairwise Block.Disjoint := by
  have hcount := h.sized.bitCount_le
  refine h.distinct.imp_of_mem ?_
  intro a b ha hb hne
  obtain ⟨i, hi, haptr, _, hasize⟩ := h.owned a ha
  obtain ⟨j, hj, hbptr, _, hbsize⟩ := h.owned b hb
  have hij : i ≠ j := by
    rintro rfl
    exact hne (haptr.trans hbptr.symm)
  have hapart := l.pmm.frame_apart (i := i) (j := j) (by omega) (by omega) hij
  rw [← haptr, ← hbptr] at hapart
  unfold Block.Disjoint
  omega

end Ledger

/-- Eight frames from `0x100000` on, with the bitmap at `0x200000`. -/
def eightFrames : Pmm :=
  pmmInit (fun _ => 0#8) 0x100000#64 0x8000#64 0x200000#64 16#64

/-- In every run of requests for at most a page, with frames freed that hold
no part of the bitmap, live blocks are pairwise disjoint. -/
theorem live_blocks_disjoint (m : Memory)
    (base length bitmapBase spare : BitVec 64) (calls : List Call) (t : Ledger)
    (hrun : Run (fun l c l' => l.Step c l' ∧ l.WithinFrame c)
      (Ledger.start (pmmInit m base length bitmapBase spare)) calls t) :
    t.live.Pairwise Block.Disjoint := by
  have hstart : (Ledger.start (pmmInit m base length bitmapBase spare)).Accounted :=
    Ledger.accounted_iff.mpr ⟨Ledger.held_start (pmmInit_sized m base length bitmapBase spare),
      by simp [Ledger.start]⟩
  have haccounted := hrun.invariant Ledger.Accounted
    (fun _ _ _ h hstep => Ledger.accounted_step h hstep.1 hstep.2) hstart
  exact haccounted.pairwise_disjoint

theorem live_blocks_disjoint_eightFrames :
    (((((Ledger.start eightFrames).exec (.kalloc 100#64)).exec .palloc).exec .palloc).exec
        (.kfree 0x100000#64)).live = [⟨0x102000#64, 4096⟩, ⟨0x101000#64, 4096⟩] ∧
      (((((Ledger.start eightFrames).exec (.kalloc 100#64)).exec .palloc).exec .palloc).exec
        (.kfree 0x100000#64)).live.Pairwise Block.Disjoint :=
  ⟨by decide +kernel,
    live_blocks_disjoint _ _ _ _ _ [.kalloc 100#64, .palloc, .palloc, .kfree 0x100000#64] _
      (Run.cons ⟨⟨trivial, rfl⟩, by decide⟩
        (Run.cons ⟨⟨trivial, rfl⟩, trivial⟩
          (Run.cons ⟨⟨trivial, rfl⟩, trivial⟩
            (Run.cons ⟨⟨by decide +kernel, rfl⟩, by decide⟩ (Run.nil _)))))⟩

/-- A request for two pages is answered with one frame, and the next frame
goes to the next caller. -/
theorem two_page_block_overlaps :
    ¬ ∀ (m : Memory) (base length bitmapBase spare : BitVec 64)
      (calls : List Call) (t : Ledger),
      Run Ledger.Step (Ledger.start (pmmInit m base length bitmapBase spare)) calls t →
        t.live.Pairwise Block.Disjoint := by
  intro hclaim
  have hrun : Run Ledger.Step (Ledger.start eightFrames) [.kalloc 8192#64, .palloc]
      (((Ledger.start eightFrames).exec (.kalloc 8192#64)).exec .palloc) :=
    Run.cons ⟨trivial, rfl⟩ (Run.cons ⟨trivial, rfl⟩ (Run.nil _))
  have hlive : (((Ledger.start eightFrames).exec (.kalloc 8192#64)).exec .palloc).live =
      [⟨0x101000#64, 4096⟩, ⟨0x100000#64, 8192⟩] := by decide +kernel
  have hdisjoint := hclaim _ _ _ _ _ _ _ hrun
  rw [hlive] at hdisjoint
  exact absurd hdisjoint (by decide)

end Asnu
