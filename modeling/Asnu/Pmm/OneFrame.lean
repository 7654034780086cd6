import Asnu.Lib.Stores
import Asnu.Pmm.Blocks

/-!
What one `kfree` touches. The bit it clears is that of the frame around the
pointer, but the zeroing starts at the pointer itself and runs for a page, so
the two agree for the first byte of a frame only. The stores are those that
`kfree` makes on its way, `memset` counting as one store of its range.
-/

namespace Asnu

open Lib

def bitmapClearBitCode (index : BitVec 64) : Storing Pmm Unit := do
  let length ← Logging.look (fun s => s.file.bitmapLength)
  if index ≥ length * 8#64 then pure ()
  else do
    let base ← Logging.look (fun s => s.file.bitmapBase)
    Storing.store (Bitmap.slot base index.toNat) 1
      (fun s => { s with mem := Bitmap.clear s.mem base index.toNat })

def kfreeCode (ptr : Ptr) : Storing Pmm Unit :=
  if ptr = NULL then pure ()
  else do
    let base ← Logging.look (fun s => s.file.base)
    let length ← Logging.look (fun s => s.file.length)
    if ptr < base ∨ ptr ≥ base + length then pure ()
    else do
      bitmapClearBitCode ((ptr - base) / 4096#64)
      Storing.store ptr 4096 (fun s => { s with mem := memset s.mem ptr 0#32 4096#64 })

theorem bitmapClearBitCode_alone (s : Pmm) (index : BitVec 64) :
    (bitmapClearBitCode index).alone s = ((), bitmapClearBit s index) := by
  rw [bitmapClearBitCode, Logging.alone_look_bind, bitmapClearBit]
  by_cases hrange : index ≥ s.file.bitmapLength * 8#64
  · rw [if_pos hrange, if_pos hrange, Prog.alone_pure]
  · rw [if_neg hrange, if_neg hrange, Logging.alone_look_bind, Storing.alone_store]

/-- The program is `kfree`. -/
theorem kfreeCode_alone (s : Pmm) (ptr : Ptr) : (kfreeCode ptr).alone s = ((), kfree s ptr) := by
  unfold kfreeCode kfree
  by_cases hnull : ptr = NULL
  · rw [if_pos hnull, if_pos hnull]
    rfl
  · rw [if_neg hnull, if_neg hnull, Logging.alone_look_bind, Logging.alone_look_bind]
    by_cases hrange : ptr < s.file.base ∨ ptr ≥ s.file.base + s.file.length
    · rw [if_pos hrange, if_pos hrange, Prog.alone_pure]
    · rw [if_neg hrange, if_neg hrange, Prog.alone_bind, bitmapClearBitCode_alone,
        Storing.alone_store]

theorem bitmapClearBitCode_honest (index : BitVec 64) :
    Storing.Honest Pmm.mem (bitmapClearBitCode index) := by
  refine (Storing.Honest.look _).bind (fun length => Storing.Honest.ite
    (fun _ => Storing.Honest.pure _) (fun _ => (Storing.Honest.look _).bind (fun base => ?_)))
  refine Storing.Honest.store (fun s x hx => Bitmap.clear_out _ ?_)
  rintro rfl
  exact hx (by simp [InRange])

theorem kfreeCode_honest (ptr : Ptr) : Storing.Honest Pmm.mem (kfreeCode ptr) := by
  refine Storing.Honest.ite (fun _ => Storing.Honest.pure _) (fun _ => ?_)
  refine (Storing.Honest.look _).bind (fun base => (Storing.Honest.look _).bind (fun length => ?_))
  refine Storing.Honest.ite (fun _ => Storing.Honest.pure _) (fun _ => ?_)
  refine (bitmapClearBitCode_honest _).bind (fun _ => Storing.Honest.store (fun s x hx => ?_))
  dsimp only
  rw [memset_eq_fill]
  exact Memory.fill_out _ _ hx

namespace Pmm

/-- The frame that holds `ptr`. -/
def indexOf (s : Pmm) (ptr : Ptr) : Nat := (ptr - s.file.base).toNat / 4096

/-- `kfree` returns before it does anything. -/
def Ignores (s : Pmm) (ptr : Ptr) : Prop :=
  ptr = NULL ∨ ptr < s.file.base ∨ ptr ≥ s.file.base + s.file.length

/-- Nothing changes, or the bit of the frame of `ptr` is cleared, no other bit changes, and
every store is the one to the byte of that bit or stays in that frame and in the region. -/
def FreesOne (code : Storing Pmm Unit) (s : Pmm) (ptr : Ptr) : Prop :=
  (code.alone s).2 = s ∨
    (s.indexOf ptr < s.bitCount ∧ (code.alone s).2.bit (s.indexOf ptr) = false ∧
      (∀ j < s.bitCount, j ≠ s.indexOf ptr → (code.alone s).2.bit j = s.bit j) ∧
      ∀ w ∈ code.stores s, w = ⟨Bitmap.slot s.file.bitmapBase (s.indexOf ptr), 1⟩ ∨
        ∀ x, w.Has x → InRange (s.frame (s.indexOf ptr)) 4096 x ∧
          InRange s.file.base s.file.length.toNat x)

/-- The bytes of the other frames that are taken stay. -/
def KeepsOthers (code : Storing Pmm Unit) (s : Pmm) (ptr : Ptr) : Prop :=
  ∀ k < s.bitCount, s.frame k ≠ s.frame (s.indexOf ptr) → s.bit k = true →
    ∀ x, InRange (s.frame k) 4096 x → (code.alone s).2.mem x = s.mem x

/-- The page from `ptr` on is zero, and there is no bit that is set for it. -/
def Idle (s : Pmm) (ptr : Ptr) : Prop :=
  (∀ x, InRange ptr 4096 x → s.mem x = 0#8) ∧
    (s.indexOf ptr < s.bitCount → s.bit (s.indexOf ptr) = false)

/-- `ptr` is the first byte of a frame that lies in the region and has a bit. No other
bit that is set is kept in that frame, and its own bit, if set, in no frame that is taken. -/
structure WholeFrame (s : Pmm) (ptr : Ptr) : Prop where
  first : (ptr - s.file.base).toNat % 4096 = 0
  inside : (ptr - s.file.base).toNat + 4096 ≤ s.file.length.toNat
  counted : s.indexOf ptr < s.bitCount
  bits : ∀ j < s.bitCount, j ≠ s.indexOf ptr → s.bit j = true →
    ¬ InRange ptr 4096 (Bitmap.slot s.file.bitmapBase j)
  own : s.bit (s.indexOf ptr) = true → ∀ k < s.bitCount, s.frame k ≠ ptr → s.bit k = true →
    ¬ InRange (s.frame k) 4096 (Bitmap.slot s.file.bitmapBase (s.indexOf ptr))

theorem toNat_indexOf (s : Pmm) (ptr : Ptr) :
    ((ptr - s.file.base) / 4096#64).toNat = s.indexOf ptr := by
  rw [BitVec.toNat_udiv, indexOf]
  rfl

/-- Where `ptr` lies in its frame. -/
theorem sub_frame_indexOf (s : Pmm) (ptr : Ptr) :
    (ptr - s.frame (s.indexOf ptr)).toNat = (ptr - s.file.base).toNat % 4096 := by
  have hframe := s.frame_toNat (s.indexOf ptr)
  have hindex : s.indexOf ptr = (ptr - s.file.base).toNat / 4096 := rfl
  have hsub := BitVec.toNat_sub ptr s.file.base
  have hbase := s.file.base.isLt
  have hptr := ptr.isLt
  rw [BitVec.toNat_sub]
  omega

theorem frame_indexOf {s : Pmm} {ptr : Ptr} (h : (ptr - s.file.base).toNat % 4096 = 0) :
    s.frame (s.indexOf ptr) = ptr := by
  have hsub := s.sub_frame_indexOf ptr
  rw [h] at hsub
  have hzero : ptr - s.frame (s.indexOf ptr) = 0#64 := BitVec.eq_of_toNat_eq hsub
  bv_omega

/-- Frames that share a byte are the same, whatever their indices. -/
theorem frame_eq_of_inRange {s : Pmm} {i k : Nat} {x : Ptr}
    (hi : InRange (s.frame i) 4096 x) (hk : InRange (s.frame k) 4096 x) :
    s.frame k = s.frame i := by
  have hfi := s.frame_toNat i
  have hfk := s.frame_toNat k
  have hx := x.isLt
  have hbase := s.file.base.isLt
  unfold InRange at hi hk
  rw [BitVec.toNat_sub] at hi hk
  apply BitVec.eq_of_toNat_eq
  omega

theorem kfree_of_ignores {s : Pmm} {ptr : Ptr} (h : s.Ignores ptr) : kfree s ptr = s := by
  unfold kfree
  rcases h with hnull | hrange
  · rw [if_pos hnull]
  · split
    · rfl
    · exact if_pos hrange

theorem kfree_of_not_ignores {s : Pmm} {ptr : Ptr} (h : ¬ s.Ignores ptr) :
    kfree s ptr = release s ptr := by
  obtain ⟨hnull, hlow, hhigh⟩ : ptr ≠ NULL ∧ ¬ ptr < s.file.base ∧
      ¬ ptr ≥ s.file.base + s.file.length := by
    simpa only [Ignores, not_or] using h
  exact kfree_eq_release hnull (BitVec.not_lt.mp hlow) (BitVec.not_le.mp hhigh)

/-- The page from `ptr` on is zero afterwards. -/
theorem release_page (s : Pmm) {ptr x : Ptr} (hx : InRange ptr 4096 x) :
    (release s ptr).mem x = 0#8 := Memory.fill_in _ _ hx

/-- A bit in the page goes with it; of the others that of `ptr` is cleared. -/
theorem bit_release_eq (s : Pmm) (ptr : Ptr) {j : Nat} (hj : j < s.bitCount) :
    (release s ptr).bit j =
      if InRange ptr 4096 (Bitmap.slot s.file.bitmapBase j) ∨ j = s.indexOf ptr then false
      else s.bit j := by
  have hcount := s.bitCount_lt
  by_cases hin : InRange ptr 4096 (Bitmap.slot s.file.bitmapBase j)
  · have hzero := s.release_page hin
    rw [if_pos (Or.inl hin), bit, Bitmap.bit, release_file, hzero, BitVec.getLsbD_zero]
  · rw [bit_release s ptr (by omega) hin, s.toNat_indexOf]
    by_cases hself : j = s.indexOf ptr
    · rw [if_pos ⟨hself, hj⟩, if_pos (Or.inr hself)]
    · rw [if_neg (fun h => hself h.1), if_neg (not_or.mpr ⟨hin, hself⟩)]

/-- Clearing a bit that is not set, or that there is not, changes nothing. -/
theorem bitmapClearBit_of_clear {s : Pmm} {index : BitVec 64}
    (h : index.toNat < s.bitCount → s.bit index.toNat = false) : bitmapClearBit s index = s := by
  unfold bitmapClearBit
  split
  · rfl
  · next hlt =>
      have hbit : (s.mem (Bitmap.slot s.file.bitmapBase index.toNat)).getLsbD (index.toNat % 8) =
          false := h (BitVec.not_le.mp hlt)
      have hsame : Bitmap.clear s.mem s.file.bitmapBase index.toNat = s.mem := by
        funext x
        rw [Bitmap.clear, Memory.poke]
        split
        · next hx =>
            rw [hx]
            apply BitVec.eq_of_getLsbD_eq
            intro k hk
            rw [BitVec.getLsbD_and, BitVec.getLsbD_not, Bitmap.getLsbD_mask _ _ hk]
            by_cases hkb : k = index.toNat % 8
            · rw [hkb, hbit, Bool.false_and]
            · simp [hkb, hk]
        · rfl
      rw [hsame]

theorem release_of_idle {s : Pmm} {ptr : Ptr} (h : s.Idle ptr) : release s ptr = s := by
  have hclear : bitmapClearBit s ((ptr - s.file.base) / 4096#64) = s := by
    apply bitmapClearBit_of_clear
    rw [s.toNat_indexOf]
    exact h.2
  have hzero : s.mem.fill ptr 4096 0#8 = s.mem := by
    funext x
    rw [Memory.fill]
    split
    · next hx => exact (h.1 x hx).symm
    · rfl
  rw [release, hclear, hzero]

/-- Every other byte stays. -/
theorem release_out {s : Pmm} {ptr x : Ptr} (hx : ¬ InRange ptr 4096 x)
    (hslot : x ≠ Bitmap.slot s.file.bitmapBase (s.indexOf ptr)) :
    (release s ptr).mem x = s.mem x := by
  refine (Memory.fill_out _ _ hx).trans ?_
  unfold bitmapClearBit
  split
  · rfl
  · rw [← s.toNat_indexOf] at hslot
    exact Bitmap.clear_out _ hslot

namespace WholeFrame

variable {s : Pmm} {ptr : Ptr} (h : s.WholeFrame ptr)
include h

theorem inside_page {x : Ptr} (hx : InRange ptr 4096 x) :
    InRange s.file.base s.file.length.toNat x := by
  have hinside := h.inside
  have hfirst := h.first
  have hlen := s.file.length.isLt
  have hsum : x - s.file.base = (x - ptr) + (ptr - s.file.base) := by bv_omega
  unfold InRange at hx ⊢
  rw [hsum, BitVec.toNat_add]
  omega

theorem freesOne (hkfree : kfree s ptr = release s ptr)
    (hstores : ∀ w ∈ (kfreeCode ptr).stores s,
      w = ⟨Bitmap.slot s.file.bitmapBase (s.indexOf ptr), 1⟩ ∨ w = ⟨ptr, 4096⟩) :
    FreesOne (kfreeCode ptr) s ptr := by
  refine Or.inr ⟨h.counted, ?_, fun j hj hne => ?_, fun w hw => ?_⟩
  · rw [kfreeCode_alone, hkfree, s.bit_release_eq ptr h.counted, if_pos (Or.inr rfl)]
  · rw [kfreeCode_alone, hkfree, s.bit_release_eq ptr hj]
    split
    · next hgone =>
        have hin := hgone.resolve_right hne
        by_contra hset
        exact h.bits j hj hne (Bool.eq_true_of_not_eq_false (fun h => hset h.symm)) hin
    · rfl
  · refine (hstores w hw).imp id ?_
    rintro rfl x hx
    exact ⟨(frame_indexOf h.first).symm ▸ hx, h.inside_page hx⟩

theorem keepsOthers (hkfree : kfree s ptr = release s ptr) :
    KeepsOthers (kfreeCode ptr) s ptr := by
  have hptr := frame_indexOf h.first
  intro k hk hne hset x hx
  rw [hptr] at hne
  rw [kfreeCode_alone, hkfree]
  have hpage : ¬ InRange ptr 4096 x := by
    intro hpage
    rw [← hptr] at hpage hne
    exact hne (frame_eq_of_inRange hpage hx)
  by_cases hown : s.bit (s.indexOf ptr) = true
  · refine release_out hpage ?_
    rintro rfl
    exact h.own hown k hk hne hset hx
  · -- the byte of the bit is written, but as it was
    have hclear : bitmapClearBit s ((ptr - s.file.base) / 4096#64) = s := by
      apply bitmapClearBit_of_clear
      rw [s.toNat_indexOf]
      exact fun _ => Bool.eq_false_of_not_eq_true hown
    rw [release, hclear]
    exact Memory.fill_out _ _ hpage

end WholeFrame

/-- The stores of a `kfree` that does something. -/
theorem kfreeCode_stores {s : Pmm} {ptr : Ptr} (h : ¬ s.Ignores ptr) :
    (kfreeCode ptr).stores s =
      (bitmapClearBitCode ((ptr - s.file.base) / 4096#64)).stores s ++ [⟨ptr, 4096⟩] := by
  obtain ⟨hnull, hrange⟩ := not_or.mp h
  unfold kfreeCode
  rw [if_neg hnull, Logging.stores_look_bind, Logging.stores_look_bind, if_neg hrange,
    Logging.stores_bind, Storing.stores_store]

theorem bitmapClearBitCode_stores {s : Pmm} {index : BitVec 64} :
    ∀ w ∈ (bitmapClearBitCode index).stores s,
      w = ⟨Bitmap.slot s.file.bitmapBase index.toNat, 1⟩ := by
  rw [bitmapClearBitCode, Logging.stores_look_bind]
  by_cases hrange : index ≥ s.file.bitmapLength * 8#64
  · rw [if_pos hrange, Logging.stores_pure]
    exact List.forall_mem_nil _
  · rw [if_neg hrange, Logging.stores_look_bind, Storing.stores_store]
    exact List.forall_mem_singleton.mpr rfl

/-- The zeroing goes to its whole page, so that page is the frame. -/
theorem wholeFrame_of_stores {s : Pmm} {ptr : Ptr} (hfree : ¬ s.Ignores ptr)
    (hcounted : s.indexOf ptr < s.bitCount)
    (hbits : ∀ j < s.bitCount, j ≠ s.indexOf ptr → (release s ptr).bit j = s.bit j)
    (hstores : ∀ w ∈ (kfreeCode ptr).stores s,
      w = ⟨Bitmap.slot s.file.bitmapBase (s.indexOf ptr), 1⟩ ∨
        ∀ x, w.Has x → InRange (s.frame (s.indexOf ptr)) 4096 x ∧
          InRange s.file.base s.file.length.toNat x)
    (hothers : KeepsOthers (kfreeCode ptr) s ptr) : s.WholeFrame ptr := by
  have hpage : ∀ x, InRange ptr 4096 x → InRange (s.frame (s.indexOf ptr)) 4096 x ∧
      InRange s.file.base s.file.length.toNat x := by
    have hmem : (⟨ptr, 4096⟩ : Span) ∈ (kfreeCode ptr).stores s := by
      rw [kfreeCode_stores hfree]
      exact List.mem_append_right _ List.mem_cons_self
    refine (hstores _ hmem).resolve_left (fun h => ?_)
    have hsize : 4096 = 1 := congrArg Span.size h
    omega
  have hlast : InRange ptr 4096 (ptr + BitVec.ofNat 64 4095) :=
    inRange_add ptr (by decide) (by decide)
  obtain ⟨hframe, hregion⟩ := hpage _ hlast
  have hoff := s.sub_frame_indexOf ptr
  unfold InRange at hframe hregion
  have hfirst : (ptr - s.file.base).toNat % 4096 = 0 := by bv_omega
  refine ⟨hfirst, by bv_omega, hcounted, fun j hj hne hset hin => ?_,
    fun hown k hk hne hset hin => ?_⟩
  · have hgone := s.bit_release_eq ptr hj
    rw [if_pos (Or.inl hin), hbits j hj hne, hset] at hgone
    exact Bool.noConfusion hgone
  · rw [← frame_indexOf hfirst] at hne
    have hkept := hothers k hk hne hset _ hin
    have hcleared := s.bit_release_eq ptr hcounted
    rw [kfreeCode_alone, kfree_of_not_ignores hfree] at hkept
    have hsame : Bitmap.bit (release s ptr).mem s.file.bitmapBase (s.indexOf ptr) =
        Bitmap.bit s.mem s.file.bitmapBase (s.indexOf ptr) := Bitmap.bit_congr hkept
    rw [if_pos (Or.inr rfl), bit, release_file, hsame] at hcleared
    exact Bool.noConfusion (hown.symm.trans hcleared)

/-- Where nothing changes there were zeros and no bit. -/
theorem idle_of_release_eq {s : Pmm} {ptr : Ptr} (hsame : release s ptr = s) :
    s.Idle ptr := by
  constructor
  · intro x hx
    rw [← s.release_page hx, hsame]
  · intro hcounted
    have hbit := s.bit_release_eq ptr hcounted
    rwa [hsame, if_pos (Or.inr rfl)] at hbit

end Pmm

/-- For every contents of the memory and every pointer, `kfree` touches one frame only
exactly if it ignores the pointer, finds nothing to change, or is given the first byte of a
whole frame that keeps no bit of another and whose bit is kept in no other that is taken.
The stores are all of those that change something. -/
theorem kfree_one_frame_iff (s : Pmm) (ptr : Ptr) :
    (kfreeCode ptr).alone s = ((), kfree s ptr) ∧
      (∀ x, (kfree s ptr).mem x ≠ s.mem x → ∃ w ∈ (kfreeCode ptr).stores s, w.Has x) ∧
      (Pmm.FreesOne (kfreeCode ptr) s ptr ∧ Pmm.KeepsOthers (kfreeCode ptr) s ptr ↔
        s.Ignores ptr ∨ s.Idle ptr ∨ s.WholeFrame ptr) := by
  refine ⟨kfreeCode_alone s ptr, fun x hchanged => ?_, ?_⟩
  · refine (kfreeCode_honest ptr).has_of_changed ?_
    rw [kfreeCode_alone]
    exact hchanged
  have hkept : kfree s ptr = s →
      Pmm.FreesOne (kfreeCode ptr) s ptr ∧ Pmm.KeepsOthers (kfreeCode ptr) s ptr := by
    intro hsame
    have halone : ((kfreeCode ptr).alone s).2 = s := by rw [kfreeCode_alone, hsame]
    exact ⟨Or.inl halone, fun _ _ _ _ x _ => by rw [halone]⟩
  by_cases hfree : s.Ignores ptr
  · exact iff_of_true (hkept (Pmm.kfree_of_ignores hfree)) (Or.inl hfree)
  · have hkfree := Pmm.kfree_of_not_ignores hfree
    constructor
    · rintro ⟨hone, hothers⟩
      rw [Pmm.FreesOne, kfreeCode_alone, hkfree] at hone
      rcases hone with hsame | ⟨hcounted, _, hbits, hstores⟩
      · exact Or.inr (Or.inl (Pmm.idle_of_release_eq hsame))
      · exact Or.inr (Or.inr (Pmm.wholeFrame_of_stores hfree hcounted hbits hstores hothers))
    · rintro (hignores | hidle | hwhole)
      · exact absurd hignores hfree
      · exact hkept (hkfree.trans (Pmm.release_of_idle hidle))
      · refine ⟨hwhole.freesOne hkfree ?_, hwhole.keepsOthers hkfree⟩
        rw [Pmm.kfreeCode_stores hfree, List.forall_mem_append, List.forall_mem_singleton]
        refine ⟨fun w hw => Or.inl ?_, Or.inr rfl⟩
        rw [← s.toNat_indexOf]
        exact Pmm.bitmapClearBitCode_stores w hw

namespace Sample

/-- Two frames are in use, and the owner of the second has written its first byte. -/
def twoOwners : Pmm :=
  let s := (palloc (palloc eightFrames).2).2
  s.withMem (s.mem.poke 0x101000#64 0xAA#8)

end Sample

/-- A pointer into the first of two frames in use: the second one loses its first
byte. -/
theorem kfree_spills :
    ¬ ∀ (s : Pmm) (ptr : Ptr),
      Pmm.FreesOne (kfreeCode ptr) s ptr ∧ Pmm.KeepsOthers (kfreeCode ptr) s ptr := by
  intro hclaim
  have hkept := (hclaim Sample.twoOwners 0x100001#64).2 1 (by decide +kernel)
    (by decide +kernel) (by decide +kernel) 0x101000#64 (by decide +kernel)
  have hfree : ¬ Sample.twoOwners.Ignores 0x100001#64 := by
    unfold Pmm.Ignores
    decide +kernel
  rw [kfreeCode_alone, Pmm.kfree_of_not_ignores hfree,
    Pmm.release_page _ (by decide +kernel)] at hkept
  exact absurd hkept (by decide +kernel)

end Asnu
