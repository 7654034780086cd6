import Asnu.Kmain
import Asnu.Vmm.Footprint

/-!
What the memory of a machine goes to. `kmain` hands the largest entry of the memory map
to the allocator, and from then on each of its frames is free, or in the hands of a client
that was given it, or one of the page tables that the mapped addresses need.
-/

namespace Asnu

open Lib

/-- The offset of the direct map that the conversions of addresses take for granted. -/
abbrev directOffset : BitVec 64 := 0xFFFF800000000000#64

/-- A memory map from which `kmain` takes `e` for the frames and `e'` for the bitmap. -/
structure Bootable (entries : List MemmapEntry) (e e' : MemmapEntry) : Prop where
  apart : NonOverlapping entries
  largest : ∃ i, (selectEntries entries).largestEntry = some i ∧ entries[i]? = some e
  second : ∃ j, (selectEntries entries).secondLargestEntry = some j ∧ entries[j]? = some e'
  nonempty : 0 < e.length.toNat
  aligned : e.base.toNat % 4096 = 0
  /-- The bytes of the bitmap have no bit to spare. -/
  whole : e.length.toNat % 32768 = 0
  below : e.base.toNat + e.length.toNat < 2 ^ 47
  room : e.length.toNat / 32768 ≤ e'.length.toNat

namespace Bootable

variable {entries : List MemmapEntry} {e e' : MemmapEntry} (h : Bootable entries e e')
  (m : Memory) (beyond : BitVec 64)
include h

theorem kmainPmm_eq : kmainPmm m entries directOffset beyond =
    pmmInit m (e.base + directOffset) e.length (e'.base + directOffset) e'.length := by
  obtain ⟨i, hi, he⟩ := h.largest
  obtain ⟨j, hj, he'⟩ := h.second
  exact Asnu.kmainPmm_eq m directOffset beyond hi hj he he'

theorem sized : (kmainPmm m entries directOffset beyond).Sized := by
  rw [h.kmainPmm_eq]
  exact pmmInit_sized _ _ _ _ _

theorem base_toNat : (kmainPmm m entries directOffset beyond).file.base.toNat =
    e.base.toNat + 0xFFFF800000000000 := by
  have hbelow := h.below
  rw [h.kmainPmm_eq]
  change (e.base + directOffset).toNat = _
  rw [BitVec.toNat_add, BitVec.toNat_ofNat]
  omega

theorem length_eq : (kmainPmm m entries directOffset beyond).file.length = e.length := by
  rw [h.kmainPmm_eq]
  rfl

theorem bitCount_eq :
    (kmainPmm m entries directOffset beyond).bitCount = e.length.toNat / 4096 := by
  have hwhole := h.whole
  rw [(h.sized m beyond).bitCount_eq, h.length_eq]
  omega

theorem bitmapLength_eq : (kmainPmm m entries directOffset beyond).file.bitmapLength.toNat =
    e.length.toNat / 32768 := by
  have hwhole := h.whole
  have hsize := bitmapSize_toNat e.length
  rw [h.kmainPmm_eq]
  change ((e.length / 4096#64 + 7#64) / 8#64).toNat = _
  omega

/-- No frame with a bit is cut off by the end of the entry. -/
theorem frame_inside {i : Nat} (hi : i < (kmainPmm m entries directOffset beyond).bitCount) :
    i * 4096 + 4096 ≤ e.length.toNat := by
  rw [h.bitCount_eq] at hi
  omega

theorem frame_toNat {i : Nat} (hi : i < (kmainPmm m entries directOffset beyond).bitCount) :
    ((kmainPmm m entries directOffset beyond).frame i).toNat =
      e.base.toNat + i * 4096 + 0xFFFF800000000000 := by
  have hbelow := h.below
  have hinside := h.frame_inside m beyond hi
  rw [Pmm.frame_toNat, h.base_toNat]
  omega

theorem frames_whole : (kmainPmm m entries directOffset beyond).Whole := by
  intro i hi
  have hinside := h.frame_inside m beyond hi
  rw [h.length_eq]
  omega

theorem frames_direct : (kmainPmm m entries directOffset beyond).Direct := by
  intro i hi
  have hbelow := h.below
  have haligned := h.aligned
  have hinside := h.frame_inside m beyond hi
  refine ⟨BitVec.ofNat 40 (e.base.toNat / 4096 + i), BitVec.eq_of_toNat_eq ?_⟩
  rw [h.frame_toNat m beyond hi, tablePtr_toNat, BitVec.toNat_ofNat]
  omega

/-- The bytes of a frame with a bit are bytes of the first entry. -/
theorem spans_frame {i : Nat} (hi : i < (kmainPmm m entries directOffset beyond).bitCount)
    {x : Ptr} (hx : InRange ((kmainPmm m entries directOffset beyond).frame i) 4096 x) :
    e.Spans directOffset x := by
  have hframe : (kmainPmm m entries directOffset beyond).frame i =
      e.base + directOffset + BitVec.ofNat 64 (i * 4096) := by
    rw [Pmm.frame, h.kmainPmm_eq, BitVec.ofNat_mul]
    rfl
  rw [hframe] at hx
  exact inRange_offset hx (h.frame_inside m beyond hi)

/-- The bitmap has its place in the second entry, away from the frames. -/
theorem laid : (kmainPmm m entries directOffset beyond).Laid where
  base_ne := by
    intro hzero
    have hbase := h.base_toNat m beyond
    have hnat : (kmainPmm m entries directOffset beyond).file.base.toNat = 0 :=
      congrArg BitVec.toNat hzero
    omega
  no_wrap := by
    have hbelow := h.below
    rw [h.base_toNat, h.length_eq]
    omega
  apart := by
    intro i hi k hk hin
    obtain ⟨a, ha, he⟩ := h.largest
    obtain ⟨b, hb, he'⟩ := h.second
    have hlength := e'.length.isLt
    have hbitmap : (kmainPmm m entries directOffset beyond).file.bitmapBase =
        e'.base + directOffset := by
      rw [h.kmainPmm_eq]
      rfl
    have hroom : k < e'.length.toNat := by
      rw [h.bitmapLength_eq] at hk
      exact Nat.lt_of_lt_of_le hk h.room
    have hspans := h.spans_frame m beyond hi hin
    rw [hbitmap] at hspans
    exact selected_apart h.apart directOffset ha hb he he' hspans
      (inRange_add (e'.base + directOffset) hroom (Nat.le_of_lt hlength))

/-- `pmm_init` leaves every frame free. -/
theorem exact_start : (Ledger.start (kmainPmm m entries directOffset beyond)).Exact := by
  refine Ledger.exact_start (h.sized m beyond) (h.laid m beyond) ?_
  rw [h.kmainPmm_eq]
  exact fun i hi => Pmm.bit_pmmInit _ _ _ _ _ hi

theorem palloc_ne_null : (palloc (kmainPmm m entries directOffset beyond)).1 ≠ NULL := by
  have hnonempty := h.nonempty
  have hwhole := h.whole
  have hcount := (h.exact_start m beyond).count (h.frames_whole m beyond)
  have hnull := (h.exact_start m beyond).palloc_eq_null_iff (h.frames_whole m beyond)
  have hbits := h.bitCount_eq m beyond
  simp only [Ledger.start, List.length_nil] at hcount hnull
  rw [Ne, hnull]
  omega

end Bootable

/-- In every run of the memory subsystem from `kmain` on, the tables are those of the
addresses mapped so far, one frame each; the free frames, the blocks of the clients and the
tables make up the largest entry; and `palloc` fails exactly when the last two do. -/
theorem memory_budget (m : Memory) (entries : List MemmapEntry) (beyond : BitVec 64)
    (e e' : MemmapEntry) (hmap : Bootable entries e e') (boot : Vmm)
    (hpmm : boot.pmm = kmainPmm m entries directOffset beyond) (htaken : boot.taken = [])
    (slots : Finset Index)
    (hempty : ∀ i ∈ slots,
      ¬ Entry.present (rd (vmmInit boot).pmm.mem (vmmInit boot).root i))
    (es : List MemEvent) (t : MemSystem)
    (hrun : Run (MemSystem.Step slots) { vmm := vmmInit boot, live := [] } es t) :
    let paths := tablePaths (es.filterMap MemEvent.mapped)
    (∀ q, (∃ f, t.vmm.viewNode slots q = some f) ↔ q ∈ paths) ∧
      t.vmm.taken.length = paths.card ∧
      t.vmm.pmm.freeFrames + t.live.length + paths.card = e.length.toNat / 4096 ∧
      ((palloc t.vmm.pmm).1 = NULL ↔ t.live.length + paths.card = e.length.toNat / 4096) := by
  have hstart : (Ledger.start boot.pmm).Exact := by
    rw [hpmm]
    exact hmap.exact_start m beyond
  have hnull : boot.palloc.1 ≠ NULL := by
    rw [Vmm.palloc, hpmm]
    exact hmap.palloc_ne_null m beyond
  have hbooted : Vmm.Booked slots [] (tablePaths []) (vmmInit boot) := by
    refine Vmm.Booked.vmmInit htaken hstart ?_ ?_ hnull hempty
    · rw [hpmm]
      exact hmap.frames_whole m beyond
    · rw [hpmm]
      exact hmap.frames_direct m beyond
  have hend := MemSystem.booked_run hbooted hrun
  rw [List.nil_append] at hend
  have hcount : t.vmm.pmm.bitCount = e.length.toNat / 4096 := by
    rw [← hmap.bitCount_eq m beyond, ← hpmm]
    exact Ledger.bitCount_of_file_eq ((MemSystem.run_file hrun).trans (Vmm.vmmInit_file boot))
  rw [← hcount]
  exact ⟨fun q => (hend.nodes q).symm, hend.count, hend.frames, hend.palloc_eq_null_iff⟩

namespace Sample

/-- Eight frames, and one page for their bitmap. -/
def frameMap : List MemmapEntry :=
  [⟨0x100000#64, 0x1000#64, .usable⟩, ⟨0x8000#64, 0x8000#64, .usable⟩]

theorem bootable_frameMap : Bootable frameMap ⟨0x8000#64, 0x8000#64, .usable⟩
    ⟨0x100000#64, 0x1000#64, .usable⟩ where
  apart := by
    rintro (_ | _ | i) (_ | _ | j) e e' hij he he' _ _ x hx hx' <;>
      simp only [frameMap, List.getElem?_cons_zero, List.getElem?_cons_succ, List.getElem?_nil,
        Option.some.injEq, reduceCtorEq] at he he' <;> subst he he'
    all_goals first
      | exact hij rfl
      | (unfold InRange at hx hx'; bv_omega)
  largest := ⟨1, by decide, rfl⟩
  second := ⟨0, by decide, rfl⟩
  nonempty := by decide
  aligned := by decide
  whole := by decide
  below := by decide
  room := by decide

end Sample

open Sample in
/-- After one `palloc` and one `mmap` five of the eight frames are in use. -/
theorem memory_budget_frameMap :
    ((client 8 0x8000#64 0x100).exec (.mmap sampleVa 0#64 0#64)).vmm.pmm.freeFrames = 3 := by
  have h := region_eightFrames
  have hnull : tablePtr (8 + 1) ≠ NULL := by decide
  have hrun := (h.run (R := fun _ _ => True) hnull 0#64 0#64 trivial trivial (by decide)
    (by decide) (by decide)).mono (fun _ _ _ hstep => hstep.1)
  obtain ⟨_, _, hframes, _⟩ := memory_budget (fun _ => 0#8) frameMap 0#64 _ _
    bootable_frameMap (blankCpu 8 0x8000#64 0x100) rfl rfl {257} h.absent _ _ hrun
  have hlive : ((client 8 0x8000#64 0x100).exec (.mmap sampleVa 0#64 0#64)).live.length = 1 := by
    rw [MemSystem.exec_mmap_live, h.client_live hnull]
    rfl
  have htables : (tablePaths ([.call .palloc, .mmap sampleVa 0#64 0#64].filterMap
      MemEvent.mapped)).card = 4 := by decide
  have hregion :
      (⟨0x8000#64, 0x8000#64, .usable⟩ : MemmapEntry).length.toNat / 4096 = 8 := by decide
  omega

end Asnu
