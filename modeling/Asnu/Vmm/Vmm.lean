import Asnu.Pmm.Allocator
import Asnu.Vmm.Walk

/-!
The virtual memory manager of `vmm.c`, next to the registers and the TLB of
the CPU it runs on. Between any two stores of the code the hardware may walk
pages and cache what it finds; which pages those are is fixed beforehand and
nothing depends on it, so a statement about every state covers every timing.
-/

namespace Asnu

open Lib

structure Vmm where
  pmm : Pmm
  /-- The pointer `PML4`. -/
  pml4 : Ptr
  cr3 : BitVec 64
  /-- What `palloc` has returned to this code, newest first. -/
  taken : List Ptr
  tlb : List (Page × Translation)
  /-- The pages walked before each of the coming stores. -/
  upcoming : Nat → List Page

namespace Vmm

/-- The frame of the table the hardware starts from. -/
def root (s : Vmm) : Frame := Entry.frame s.cr3

def translate (s : Vmm) (page : Page) : Option Translation :=
  Asnu.translate s.pmm.mem s.root page

/-- The cached translations of these pages; a page that is not present gets
none. -/
def cached (s : Vmm) (pages : List Page) : List (Page × Translation) :=
  pages.filterMap (fun page => (s.translate page).map (fun t => (page, t)))

/-- An access to a page. -/
def access (s : Vmm) (page : Page) : Vmm :=
  { s with tlb := s.cached [page] ++ s.tlb }

/-- What the hardware does before the next store. -/
def accesses (s : Vmm) : Vmm :=
  { s with
    tlb := s.cached (s.upcoming 0) ++ s.tlb
    upcoming := fun n => s.upcoming (n + 1) }

/-- The memory after a store. -/
def withMem (s : Vmm) (m : Memory) : Vmm :=
  { s.accesses with pmm := { s.pmm with mem := m } }

/-- `table[i]`. -/
def load (s : Vmm) (table : Ptr) (i : BitVec 64) : Entry :=
  s.pmm.mem.load64 (table + i * 8#64)

/-- `table[i] = e`. -/
def store (s : Vmm) (table : Ptr) (i : BitVec 64) (e : Entry) : Vmm :=
  s.withMem (s.pmm.mem.store64 (table + i * 8#64) e)

def memset (s : Vmm) (p : Ptr) (c : BitVec 32) (n : BitVec 64) : Vmm :=
  s.withMem (Asnu.memset s.pmm.mem p c n)

def memcpy (s : Vmm) (dest src : Ptr) (n : BitVec 64) : Vmm :=
  s.withMem (Asnu.memcpy s.pmm.mem dest src n)

def palloc (s : Vmm) : Ptr × Vmm :=
  let (p, pmm) := Asnu.palloc s.pmm
  (p, { s.accesses with pmm := pmm, taken := p :: s.taken })

/-- The instruction drops what is cached for the page of its operand. -/
def invlpg (s : Vmm) (va : Ptr) : Vmm :=
  { s.accesses with
    tlb := s.accesses.tlb.filter (fun x => x.1 ≠ pageOf va) }

/-- A write to CR3 empties the TLB. -/
def loadCr3 (s : Vmm) (v : BitVec 64) : Vmm :=
  { s.accesses with cr3 := v, tlb := [] }

end Vmm

namespace Vmm

section WithMem

variable (s : Vmm) (m : Memory)

@[simp] theorem withMem_mem : (s.withMem m).pmm.mem = m := rfl

@[simp] theorem withMem_file : (s.withMem m).pmm.file = s.pmm.file := rfl

@[simp] theorem withMem_root : (s.withMem m).root = s.root := rfl

@[simp] theorem withMem_pml4 : (s.withMem m).pml4 = s.pml4 := rfl

@[simp] theorem withMem_taken : (s.withMem m).taken = s.taken := rfl

@[simp] theorem withMem_tlb : (s.withMem m).tlb = s.accesses.tlb := rfl

end WithMem

section Invlpg

variable (s : Vmm) (va : Ptr)

@[simp] theorem invlpg_pmm : (s.invlpg va).pmm = s.pmm := rfl

@[simp] theorem invlpg_root : (s.invlpg va).root = s.root := rfl

@[simp] theorem invlpg_pml4 : (s.invlpg va).pml4 = s.pml4 := rfl

@[simp] theorem invlpg_taken : (s.invlpg va).taken = s.taken := rfl

@[simp] theorem translate_invlpg (page : Page) :
    (s.invlpg va).translate page = s.translate page := by
  rw [translate, translate, invlpg_pmm, invlpg_root]

end Invlpg

@[simp] theorem loadCr3_pmm (s : Vmm) (v : BitVec 64) : (s.loadCr3 v).pmm = s.pmm := rfl

@[simp] theorem loadCr3_pml4 (s : Vmm) (v : BitVec 64) : (s.loadCr3 v).pml4 = s.pml4 := rfl

@[simp] theorem loadCr3_taken (s : Vmm) (v : BitVec 64) : (s.loadCr3 v).taken = s.taken := rfl

section Palloc

variable (s : Vmm)

@[simp] theorem palloc_file : s.palloc.2.pmm.file = s.pmm.file := Asnu.palloc_file s.pmm

@[simp] theorem palloc_root : s.palloc.2.root = s.root := rfl

@[simp] theorem palloc_pml4 : s.palloc.2.pml4 = s.pml4 := rfl

@[simp] theorem palloc_taken : s.palloc.2.taken = s.palloc.1 :: s.taken := rfl

end Palloc

end Vmm

def vmmInit (s : Vmm) : Vmm :=
  let cr3Phys := s.cr3
  let cr3Virt := pa2va cr3Phys
  let (p, s) := s.palloc
  let s := { s with pml4 := p }
  let s := s.memcpy s.pml4 cr3Virt 4096#64
  s.loadCr3 (va2pa s.pml4)

/-- One level of `mmap`: the table that entry `i` leads to, made and linked
when the entry is not present. -/
def nextTable (s : Vmm) (table : Ptr) (i : BitVec 64) : Ptr × Vmm :=
  if s.load table i &&& pagePresent = 0#64 then
    let (p, s) := s.palloc
    let s := s.memset p 0#32 4096#64
    (p, s.store table i (va2paU64 p ||| pagePresent ||| pageRw))
  else (pa2vaU64 (s.load table i &&& ~~~0xFFF#64), s)

/-- What `mmap` stores in the last table. -/
def leafEntry (pa flags : BitVec 64) : Entry :=
  (pa &&& ~~~0xFFF#64) ||| (flags &&& 0xFFF#64) ||| pagePresent

def mmap (s : Vmm) (va pa : Ptr) (flags : BitVec 64) : Vmm :=
  let pml4Index := (va >>> 39) &&& 0x1FF#64
  let pdptIndex := (va >>> 30) &&& 0x1FF#64
  let pdIndex := (va >>> 21) &&& 0x1FF#64
  let ptIndex := (va >>> 12) &&& 0x1FF#64
  let (pdpt, s) := nextTable s s.pml4 pml4Index
  let (pd, s) := nextTable s pdpt pdptIndex
  let (pt, s) := nextTable s pd pdIndex
  let s := s.store pt ptIndex 0#64
  s.store pt ptIndex (leafEntry pa flags)

def unmap (s : Vmm) (va : Ptr) : Vmm :=
  let pml4Index := (va >>> 39) &&& 0x1FF#64
  let pdptIndex := (va >>> 30) &&& 0x1FF#64
  let pdIndex := (va >>> 21) &&& 0x1FF#64
  let ptIndex := (va >>> 12) &&& 0x1FF#64
  if s.load s.pml4 pml4Index &&& pagePresent = 0#64 then s
  else
    let pdpt := pa2vaU64 (s.load s.pml4 pml4Index &&& ~~~0xFFF#64)
    if s.load pdpt pdptIndex &&& pagePresent = 0#64 then s
    else
      let pd := pa2vaU64 (s.load pdpt pdptIndex &&& ~~~0xFFF#64)
      if s.load pd pdIndex &&& pagePresent = 0#64 then s
      else
        let pt := pa2vaU64 (s.load pd pdIndex &&& ~~~0xFFF#64)
        let s := s.store pt ptIndex 0#64
        s.invlpg va

namespace Vmm

theorem nextTable_file (s : Vmm) (table : Ptr) (i : BitVec 64) :
    (nextTable s table i).2.pmm.file = s.pmm.file := by
  have hstored : ∀ (p : Ptr) (e : Entry),
      ((s.palloc.2.memset p 0#32 4096#64).store table i e).pmm.file = s.pmm.file := by
    intro p e
    rw [store, withMem_file, memset, withMem_file, palloc_file]
  unfold nextTable
  split
  · exact hstored _ _
  · rfl

theorem mmap_file (s : Vmm) (va pa : Ptr) (flags : BitVec 64) :
    (mmap s va pa flags).pmm.file = s.pmm.file := by
  dsimp only [mmap]
  rw [store, withMem_file, store, withMem_file, nextTable_file, nextTable_file, nextTable_file]

theorem unmap_file (s : Vmm) (va : Ptr) : (unmap s va).pmm.file = s.pmm.file := by
  dsimp only [unmap]
  split_ifs
  · rfl
  · rfl
  · rfl
  · rw [invlpg_pmm, store, withMem_file]

end Vmm

end Asnu
