import Asnu.Vmm.Tables

/-!
The state `vmm_init` leaves behind: the tables that the bootloader made, under
a copy of their root, and an empty TLB.
-/

namespace Asnu

open Lib

namespace Vmm

/-- What `vmm_init` finds: CR3 names the root of a tree and sets no cache
control, and `palloc` answers with `f`. -/
structure Boots (s : Vmm) (f : Frame) : Prop where
  unshared : Radix.Unshared Entry.next (rd s.pmm.mem) s.root
  cr3 : s.cr3 = s.root.address
  grants : s.Grants f

theorem vmmInit_eq (s : Vmm) :
    vmmInit s = ({ s.palloc.2 with pml4 := s.palloc.1 }.memcpy s.palloc.1 (pa2va s.cr3)
      4096#64).loadCr3 (va2pa s.palloc.1) := rfl

theorem vmmInit_pml4 (s : Vmm) : (vmmInit s).pml4 = s.palloc.1 := by
  rw [vmmInit_eq, loadCr3_pml4, memcpy, withMem_pml4]

theorem vmmInit_taken (s : Vmm) : (vmmInit s).taken = s.palloc.1 :: s.taken := by
  rw [vmmInit_eq, loadCr3_taken, memcpy, withMem_taken, palloc_taken]

theorem vmmInit_file (s : Vmm) : (vmmInit s).pmm.file = s.pmm.file := by
  rw [vmmInit_eq, loadCr3_pmm, memcpy, withMem_file, palloc_file]

/-- `vmm_init` writes the frame it takes, and the bit of that frame. -/
theorem vmmInit_bytes (s : Vmm) {x : Ptr} (hx : ¬ InRange s.palloc.1 4096 x) :
    (vmmInit s).pmm.mem x = s.palloc.2.pmm.mem x := by
  rw [vmmInit_eq, loadCr3_pmm, memcpy, withMem_mem]
  exact memcpy_out _ _ _ hx

theorem vmmInit_root {s : Vmm} {f : Frame} (hptr : s.palloc.1 = tablePtr f) :
    (vmmInit s).root = f := by
  have hcr3 : (vmmInit s).cr3 = va2pa s.palloc.1 := rfl
  have hframe := @frame_address_or f 0#64 (by decide)
  rw [root, hcr3, hptr, va2pa, tablePtr, pa2vaU64, BitVec.add_sub_cancel]
  rwa [BitVec.or_zero] at hframe

/-- The frame becomes a copy of the table that CR3 names. -/
theorem vmmInit_mem {s : Vmm} {f r : Frame} (hptr : s.palloc.1 = tablePtr f)
    (hcr3 : s.cr3 = r.address) (hne : f ≠ r) :
    (vmmInit s).pmm.mem = s.palloc.2.pmm.mem.copy (tablePtr f) (tablePtr r) 4096 := by
  have hsrc : pa2va s.cr3 = tablePtr r := by
    rw [hcr3]
    rfl
  have hcopy := memcpy_eq_copy s.palloc.2.pmm.mem (tablePtr f) (tablePtr r) 4096#64
    (fun _ => tables_apart hne)
  rw [vmmInit_eq, loadCr3_pmm, memcpy, withMem_mem, hptr, hsrc]
  exact hcopy

namespace Grants

variable {s : Vmm} {f : Frame} (h : s.Grants f)
include h

theorem ptr : s.palloc.1 = tablePtr f := h.pointer

theorem ne_root : f ≠ s.root := fun heq => h.fresh ⟨[], congrArg some heq.symm⟩

/-- The tables stay, whatever is copied into the new one. -/
theorem rd_kept (q : List Index) (t : Frame) (i : Index) (ht : s.node q = some t) :
    rd (vmmInit s).pmm.mem t i = rd s.pmm.mem t i := by
  have hne : t ≠ f := fun heq => h.fresh ⟨q, heq ▸ ht⟩
  have hbytes : ∀ x, InRange (tablePtr t) 4096 x →
      (vmmInit s).pmm.mem x = s.palloc.2.pmm.mem x := by
    intro x hx
    have hout : ¬ InRange s.palloc.1 4096 x := by
      rw [h.ptr]
      exact tables_apart hne hx
    exact vmmInit_bytes s hout
  exact (rd_congr hbytes i).trans (h.rd_palloc ⟨q, ht⟩ i)

/-- A true copy of the root leads every page through the same entries. -/
theorem entries_vmmInit (hroot : ∀ i, rd (vmmInit s).pmm.mem f i = rd s.pmm.mem s.root i)
    (page : Page) : (vmmInit s).entries page = s.entries page := by
  rw [entries, entries, Asnu.entries, Asnu.entries, vmmInit_root h.ptr, path,
    Radix.walk_copy hroot h.rd_kept]

end Grants

namespace Boots

variable {s : Vmm} {f : Frame} (h : s.Boots f)
include h

theorem ptr : s.palloc.1 = tablePtr f := h.grants.ptr

/-- Nothing is written but the new root and the bitmap. -/
theorem vmmInit_out {x : Ptr} (hx : ¬ InRange (tablePtr f) 4096 x)
    (hrecords : ¬ s.Records x) : (vmmInit s).pmm.mem x = s.pmm.mem x := by
  rw [vmmInit_bytes s (h.ptr ▸ hx)]
  exact s.palloc_mem_out hrecords

theorem rd_root (i : Index) : rd (vmmInit s).pmm.mem f i = rd s.pmm.mem s.root i := by
  rw [vmmInit_mem h.ptr h.cr3 h.grants.ne_root, rd_copy, if_pos rfl,
    h.grants.rd_palloc ⟨[], rfl⟩]

/-- The tables are those of the bootloader, but for the root. -/
theorem isTable_vmmInit {g : Frame} (hg : (vmmInit s).IsTable g) : g = f ∨ s.IsTable g := by
  obtain ⟨q, hq⟩ := hg
  rw [node, vmmInit_root h.ptr] at hq
  cases q with
  | nil => exact Or.inl (Option.some.inj hq).symm
  | cons i is =>
      rw [Radix.node_copy h.rd_root h.grants.rd_kept] at hq
      exact Or.inr ⟨i :: is, hq⟩

theorem entries_vmmInit (page : Page) : (vmmInit s).entries page = s.entries page :=
  h.grants.entries_vmmInit h.rd_root page

theorem plainPath_vmmInit {page : Page} (hplain : s.PlainPath page) :
    (vmmInit s).PlainPath page := by
  rw [PlainPath, h.entries_vmmInit]
  exact hplain

theorem tree_vmmInit : (vmmInit s).Tree where
  pml4 := by
    rw [vmmInit_root h.ptr]
    exact h.ptr
  unshared := by
    rw [vmmInit_root h.ptr]
    exact h.unshared.copy h.rd_root h.grants.rd_kept (fun q hq => h.grants.fresh ⟨q, hq⟩)

/-- After `vmm_init` the kernel runs on a tree with the bootloader's
translations, and nothing is cached. -/
theorem vmmInit_spec :
    (vmmInit s).Tree ∧ (vmmInit s).tlb = [] ∧
      ∀ page, (vmmInit s).translate page = s.translate page :=
  ⟨h.tree_vmmInit, rfl, fun page =>
    congrArg (Translation.ofEntries page) (h.entries_vmmInit page)⟩

end Boots

end Vmm

end Asnu
