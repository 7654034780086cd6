import Asnu.Vmm.Init
import Asnu.Vmm.Owned

/-!
The page tables and the clients of the allocator together: `mmap` and `unmap`
in any order with `palloc`, `kalloc` and `kfree`. Both sides take frames from
one bitmap, and the tables stay whole as long as nobody writes over it.
-/

namespace Asnu

open Lib

structure MemSystem where
  vmm : Vmm
  /-- What clients hold. -/
  live : List Block

inductive MemEvent where
  | mmap (va pa : Ptr) (flags : BitVec 64)
  | unmap (va : Ptr)
  | call (c : Call)

namespace MemSystem

def ledger (s : MemSystem) : Ledger := { pmm := s.vmm.pmm, live := s.live }

def exec (s : MemSystem) : MemEvent → MemSystem
  | .mmap va pa flags => { s with vmm := Asnu.mmap s.vmm va pa flags }
  | .unmap va => { s with vmm := Asnu.unmap s.vmm va }
  | .call c =>
      { vmm := { s.vmm with pmm := (s.ledger.exec c).pmm }, live := (s.ledger.exec c).live }

theorem exec_mmap_vmm (s : MemSystem) (va pa : Ptr) (flags : BitVec 64) :
    (s.exec (.mmap va pa flags)).vmm = Asnu.mmap s.vmm va pa flags := rfl

theorem exec_unmap_vmm (s : MemSystem) (va : Ptr) :
    (s.exec (.unmap va)).vmm = Asnu.unmap s.vmm va := rfl

theorem exec_mmap_live (s : MemSystem) (va pa : Ptr) (flags : BitVec 64) :
    (s.exec (.mmap va pa flags)).live = s.live := rfl

/-- Addresses are in the slots, clients ask for a page at most and free what
they hold, and no allocation fails. -/
def Allowed (slots : Finset Index) (s : MemSystem) : MemEvent → Prop
  | .mmap va _ _ =>
      Vmm.slot va ∈ slots ∧ s.vmm.EachPalloc (fun u => u.palloc.1 ≠ NULL) va
  | .unmap va => Vmm.slot va ∈ slots
  | .call (.kalloc size) => size.toNat ≤ 4096 ∧ (kalloc s.vmm.pmm size).1 ≠ NULL
  | .call .palloc => (palloc s.vmm.pmm).1 ≠ NULL
  | .call (.kfree ptr) => ∃ b ∈ s.live, b.ptr = ptr

def Step (slots : Finset Index) (s : MemSystem) (e : MemEvent) (s' : MemSystem) : Prop :=
  s.Allowed slots e ∧ s' = s.exec e

/-- The frames that are zeroed hold no byte of the bitmap, and `mmap` is given
frames that the direct map shows. -/
def Spares (s : MemSystem) : MemEvent → Prop
  | .mmap va _ _ => s.vmm.EachPalloc
      (fun u => ∃ g, u.palloc.1 = tablePtr g ∧ u.pmm.MissesBitmap (tablePtr g)) va
  | .call (.kfree ptr) => s.vmm.pmm.MissesBitmap ptr
  | .unmap _ | .call (.kalloc _) | .call .palloc => True

end MemSystem

namespace Vmm

/-- Entry `i` of `t` is a present entry of the PML4 in one of the slots, or of a
PDPT or a PD that is reached through them. -/
def Upper (s : Vmm) (slots : Finset Index) (t : Frame) (i : Index) : Prop :=
  ∃ q, q.length < 3 ∧ s.viewNode slots q = some t ∧ Entry.present (s.view slots t i)

end Vmm

/-- An allowed `mmap` that spares the bitmap takes the frames of its tables. -/
theorem MemSystem.takes_of_spares {s : MemSystem} {slots : Finset Index} {va pa : Ptr}
    {flags : BitVec 64} (hallowed : s.Allowed slots (.mmap va pa flags))
    (hspares : s.Spares (.mmap va pa flags)) : s.vmm.EachPalloc Vmm.Takes va := by
  have hfine : s.vmm.EachPalloc
      (fun u => ∃ g, u.palloc.1 = tablePtr g ∧ u.pmm.MissesBitmap (tablePtr g)) va := hspares
  refine hallowed.2.and hfine ?_
  rintro u hnull ⟨g, hptr, hmiss⟩
  exact ⟨g, hptr, hnull, hmiss⟩

namespace Vmm

/-- Where the slots of the root are empty, no entry of it is seen. -/
theorem absent_of_empty {s : Vmm} {slots : Finset Index}
    (hempty : ∀ i ∈ slots, ¬ Entry.present (rd s.pmm.mem s.root i)) (i : Index) :
    ¬ Entry.present (s.view slots s.root i) := by
  by_cases hi : i ∈ slots
  · rw [Owned.view_eq (fun _ => hi)]
    exact hempty i hi
  · rw [view, if_pos ⟨rfl, hi⟩]
    decide

/-- Under a root without present entries there are no tables. -/
theorem viewNode_of_absent {s : Vmm} {slots : Finset Index}
    (habsent : ∀ i, ¬ Entry.present (s.view slots s.root i)) {q : List Index} {t : Frame}
    (hq : s.viewNode slots q = some t) : q = [] ∧ t = s.root := by
  cases q with
  | nil => exact ⟨rfl, (Option.some.inj hq).symm⟩
  | cons i q =>
      rw [viewNode, Radix.node, Entry.next_of_not_present (habsent i)] at hq
      exact absurd hq (by simp)

/-- `vmm_init` holds one frame and leaves the bitmap alone. -/
theorem held_vmmInit {boot : Vmm} (hsized : boot.pmm.Sized) (htaken : boot.taken = [])
    (htakes : boot.Takes) :
    Ledger.Held { pmm := (vmmInit boot).pmm, live := (vmmInit boot).blocks ++ [] } := by
  obtain ⟨g, hptr, hnull, hmiss⟩ := htakes
  have hnone : boot.blocks = [] := by rw [blocks, htaken, List.map_nil]
  have hstart : Ledger.Held { pmm := boot.pmm, live := boot.blocks ++ [] } := by
    rw [hnone]
    exact Ledger.held_start hsized
  have hblocks : (vmmInit boot).blocks = boot.palloc.2.blocks := by
    rw [blocks, blocks, vmmInit_taken, palloc_taken]
  have hsame : (vmmInit boot).pmm.file = boot.palloc.2.pmm.file :=
    (vmmInit_file boot).trans (palloc_file boot).symm
  rw [hblocks]
  refine (held_palloc hstart hnull).1.of_bits hsame (fun j hj => ?_) (List.Perm.refl _)
  refine Pmm.bit_of_bytes_eq hsame (fun k hk => vmmInit_bytes boot ?_) hj
  rw [palloc_file] at hk ⊢
  rw [hptr]
  exact hmiss k hk

/-- `vmm_init` takes one frame, and there are no tables under its empty slots. -/
theorem owned_vmmInit {boot : Vmm} {slots : Finset Index} (hsized : boot.pmm.Sized)
    (htaken : boot.taken = []) (htakes : boot.Takes)
    (hempty : ∀ i ∈ slots,
      ¬ Entry.present (rd (vmmInit boot).pmm.mem (vmmInit boot).root i)) :
    Owned slots [] (vmmInit boot) := by
  have hheld := held_vmmInit hsized htaken htakes
  obtain ⟨g, hptr, _, hmiss⟩ := htakes
  have hmade : (vmmInit boot).taken = [boot.palloc.1] := by rw [vmmInit_taken, htaken]
  have habsent := absent_of_empty hempty
  refine ⟨?_, ⟨[], ?_⟩, ?_, ?_, hheld, ?_⟩
  · rw [vmmInit_pml4, hptr, vmmInit_root hptr]
  · rw [hmade, vmmInit_pml4, List.nil_append]
  · exact Radix.Unshared.of_node_inj (fun p q f hp hq =>
      (viewNode_of_absent habsent hp).1.trans (viewNode_of_absent habsent hq).1.symm)
  · intro q t i hq _ hpresent
    rw [(viewNode_of_absent habsent hq).2] at hpresent
    exact absurd hpresent (habsent i)
  · intro p hp
    rw [hmade] at hp
    rw [List.mem_singleton.mp hp, hptr]
    exact hmiss.of_file_eq (vmmInit_file boot)

namespace Owned

variable {slots : Finset Index} {s : MemSystem}

/-- A call of a client that leaves the tables alone. -/
theorem client (h : Owned slots s.live s.vmm) {pmm : Pmm} {live : List Block}
    (hfile : pmm.file = s.vmm.pmm.file)
    (hbytes : ∀ f, tablePtr f ∈ s.vmm.taken → ∀ x, InRange (tablePtr f) 4096 x →
      pmm.mem x = s.vmm.pmm.mem x)
    (hheld : Ledger.Held { pmm := pmm, live := s.vmm.blocks ++ live }) :
    Owned slots live { s.vmm with pmm := pmm } ∧
      ∀ page, ({ s.vmm with pmm := pmm } : Vmm).viewTranslate slots page =
        s.vmm.viewTranslate slots page := by
  have hroot : ({ s.vmm with pmm := pmm } : Vmm).root = s.vmm.root := rfl
  have htaken : ({ s.vmm with pmm := pmm } : Vmm).taken = [] ++ s.vmm.taken := rfl
  obtain ⟨howned, _, hview⟩ := h.congr hroot rfl hfile htaken (by simp)
    (fun f hf i => rd_congr (hbytes f hf) i) hheld
  exact ⟨howned, viewTranslate_congr hroot hview⟩

/-- An allocation for a client writes one byte of the bitmap, and its frame is
no table's. -/
theorem alloc (h : Owned slots s.live s.vmm) {c : Call} (hc : ∀ ptr, c ≠ .kfree ptr) :
    Owned slots (s.exec (.call c)).live (s.exec (.call c)).vmm ∧
      ∀ page, (s.exec (.call c)).vmm.viewTranslate slots page =
        s.vmm.viewTranslate slots page := by
  rcases s.ledger.exec_alloc hc with hsame | ⟨i, size, hfree, hexec⟩
  · have heq : s.exec (.call c) = s := by
      rw [MemSystem.exec, hsame]
      rfl
    rw [heq]
    exact ⟨h, fun _ => rfl⟩
  · obtain ⟨hi, _, _⟩ := Pmm.firstFree_eq_some.mp hfree
    have hheld := h.held.grant size hfree
    simp only [MemSystem.exec, hexec]
    refine h.client rfl (fun f hf x hx => ?_) ?_
    · exact Bitmap.set_out _ (fun heq =>
        not_records s.vmm (h.misses _ hf) hx ⟨i, hi, heq⟩)
    · exact hheld.of_bits rfl (fun _ _ => rfl) (Ledger.grant_perm rfl _ size)

/-- A client frees a frame of its own: no table is in the page that is zeroed. -/
theorem kfree (h : Owned slots s.live s.vmm) {ptr : Ptr} (hlive : ∃ b ∈ s.live, b.ptr = ptr)
    (hmiss : s.vmm.pmm.MissesBitmap ptr) :
    Owned slots (s.exec (.call (.kfree ptr))).live (s.exec (.call (.kfree ptr))).vmm ∧
      ∀ page, (s.exec (.call (.kfree ptr))).vmm.viewTranslate slots page =
        s.vmm.viewTranslate slots page := by
  obtain ⟨b, hb, rfl⟩ := hlive
  have hall : b ∈ s.vmm.blocks ++ s.live := List.mem_append_right _ hb
  have hheld := h.held.kfree ⟨b, hall, rfl⟩ hmiss
  have hcount := h.held.sized.bitCount_le
  obtain ⟨_, _, hcross⟩ := List.pairwise_append.mp h.held.distinct
  have hkeeps : (s.vmm.blocks ++ s.live).eraseP (fun c => c.ptr = b.ptr) =
      s.vmm.blocks ++ s.live.eraseP (fun c => c.ptr = b.ptr) :=
    List.eraseP_append_right _ (fun c hc => by simpa using hcross c hc b hb)
  rw [Ledger.exec, hkeeps] at hheld
  refine h.client (kfree_file _ _) (fun f hf x hx => ?_) hheld
  obtain ⟨i, hi, hptr, _⟩ := h.held.owned b hall
  obtain ⟨k, hk, hframe, _⟩ := h.held.owned _ (List.mem_append_left _ (mem_blocks hf))
  have hki : k ≠ i := by
    rintro rfl
    exact hcross _ (mem_blocks hf) b hb (hframe.trans hptr.symm)
  have hout : ¬ InRange b.ptr 4096 x := by
    rw [hptr]
    refine Pmm.frame_inRange_apart _ (by omega) (by omega) hki ?_
    rw [← hframe]
    exact hx
  exact kfree_out _ hout (fun j hj heq => not_records s.vmm (h.misses _ hf) hx ⟨j, hj, heq⟩)

/-- Every event keeps the tables whole, if it spares the bitmap. -/
theorem step {e : MemEvent} {s' : MemSystem} (h : Owned slots s.live s.vmm)
    (hstep : s.Step slots e s') (hspares : s.Spares e) : Owned slots s'.live s'.vmm := by
  obtain ⟨hallowed, rfl⟩ := hstep
  cases e with
  | mmap va pa flags =>
      exact (h.mmap hallowed.1 (MemSystem.takes_of_spares hallowed hspares) pa flags).1
  | unmap va => exact (h.unmap hallowed).1
  | call c =>
      cases c with
      | kalloc size => exact (h.alloc (by simp)).1
      | palloc => exact (h.alloc (by simp)).1
      | kfree ptr => exact (h.kfree hallowed hspares).1

/-- What an entry above the last level links is the table of no other entry, and
no client has its frame. -/
theorem upper {live : List Block} {s : Vmm} (h : Owned slots live s) {t : Frame} {i : Index}
    (hupper : s.Upper slots t i) :
    ∃ f, s.view slots t i = Entry.linking f ∧ tablePtr f ∈ s.taken ∧ f ≠ s.root ∧
      ∀ b ∈ live, b.ptr ≠ tablePtr f := by
  obtain ⟨q, hlen, hq, hpresent⟩ := hupper
  obtain ⟨f, hlink, hf⟩ := h.links q t i hq hlen hpresent
  have hnode : s.viewNode slots (q ++ [i]) = some f := by
    rw [viewNode, Radix.node_snoc _ _ _ q i hq, hlink, Entry.next_linking hlen]
  obtain ⟨_, _, hcross⟩ := List.pairwise_append.mp h.held.distinct
  exact ⟨f, hlink, hf, h.ne_root hnode (by simp),
    fun b hb heq => hcross _ (mem_blocks hf) b hb heq.symm⟩

theorem upper_inj {live : List Block} {s : Vmm} (h : Owned slots live s) {t u f : Frame}
    {i j : Index} (ht : s.Upper slots t i) (hu : s.Upper slots u j)
    (hti : s.view slots t i = Entry.linking f) (huj : s.view slots u j = Entry.linking f) :
    t = u ∧ i = j := by
  obtain ⟨p, hp, hpt, _⟩ := ht
  obtain ⟨q, hq, hqu, _⟩ := hu
  exact h.unshared.single p q t u i j f hpt hqu (by rw [hti, Entry.next_linking hp])
    (by rw [huj, Entry.next_linking hq])

end Owned

end Vmm

theorem MemSystem.spares_mmap {s : MemSystem} {va : Ptr}
    (h : s.vmm.EachPalloc Vmm.Takes va) (pa : Ptr) (flags : BitVec 64) :
    s.Spares (.mmap va pa flags) := by
  have hspares : ∀ u : Vmm, u.Takes →
      ∃ g, u.palloc.1 = tablePtr g ∧ u.pmm.MissesBitmap (tablePtr g) :=
    fun _ ⟨g, hptr, _, hmiss⟩ => ⟨g, hptr, hmiss⟩
  exact h.and h (fun u htakes _ => hspares u htakes)

/-- The tables stay whole along a run. -/
theorem MemSystem.owned_of_run {slots : Finset Index} {s t : MemSystem} {es : List MemEvent}
    (hs : Vmm.Owned slots s.live s.vmm)
    (hrun : Run (fun s e s' => MemSystem.Step slots s e s' ∧ s.Spares e) s es t) :
    Vmm.Owned slots t.live t.vmm :=
  hrun.invariant (fun s => Vmm.Owned slots s.live s.vmm)
    (fun _ _ _ h hstep => h.step hstep.1 hstep.2) hs

/-- In every run from `vmm_init` in which nothing is written over the bitmap,
each present entry above the last tables links a frame that `mmap` has taken,
another one than the entries beside it, not the PML4, and no client's. -/
theorem table_frames_owned (m : Memory) (base length bitmapBase spare : BitVec 64)
    (boot : Vmm) (hpmm : boot.pmm = pmmInit m base length bitmapBase spare)
    (htaken : boot.taken = []) (hboot : boot.Takes) (slots : Finset Index)
    (hempty : ∀ i ∈ slots,
      ¬ Entry.present (rd (vmmInit boot).pmm.mem (vmmInit boot).root i))
    (es : List MemEvent) (t : MemSystem)
    (hrun : Run (fun s e s' => MemSystem.Step slots s e s' ∧ s.Spares e)
      { vmm := vmmInit boot, live := [] } es t) :
    ∃ made, t.vmm.taken = made ++ [t.vmm.pml4] ∧
      (∀ f i, t.vmm.Upper slots f i → ∃ p ∈ made,
        t.vmm.view slots f i = va2paU64 p ||| pagePresent ||| pageRw ∧
          p = tablePtr (Entry.frame (t.vmm.view slots f i)) ∧ p ≠ t.vmm.pml4 ∧
          ∀ b ∈ t.live, b.ptr ≠ p) ∧
      ∀ f i g j, t.vmm.Upper slots f i → t.vmm.Upper slots g j →
        Entry.frame (t.vmm.view slots f i) = Entry.frame (t.vmm.view slots g j) →
          f = g ∧ i = j := by
  have hsized : boot.pmm.Sized := hpmm ▸ pmmInit_sized m base length bitmapBase spare
  have h : Vmm.Owned slots t.live t.vmm :=
    MemSystem.owned_of_run (Vmm.owned_vmmInit hsized htaken hboot hempty) hrun
  have hframe : ∀ f, Entry.frame (Entry.linking f) = f := fun f =>
    frame_address_or f (by decide)
  obtain ⟨made, hmade⟩ := h.made
  refine ⟨made, hmade, fun f i hupper => ?_, fun f i g j hf hg heq => ?_⟩
  · obtain ⟨g, hlink, hg, hne, hlive⟩ := h.upper hupper
    have hpml4 : tablePtr g ≠ t.vmm.pml4 := by
      rw [h.pml4]
      exact fun heq => hne (tablePtr_inj heq)
    rw [hmade] at hg
    have hmem := (List.mem_append.mp hg).resolve_right
      (fun hlast => hpml4 (List.mem_singleton.mp hlast))
    exact ⟨tablePtr g, hmem, by rw [hlink, Entry.va2paU64_tablePtr], by rw [hlink, hframe],
      hpml4, hlive⟩
  · obtain ⟨a, ha, _⟩ := h.upper hf
    obtain ⟨b, hb, _⟩ := h.upper hg
    rw [ha, hb, hframe, hframe] at heq
    exact h.upper_inj hf hg ha (heq ▸ hb)

namespace Sample

/-- Zeroed memory with a region of `length` bytes from frame `base` on, whose
bitmap is in a frame of its own, and an empty PML4 in frame 1. -/
def blankCpu (base : Frame) (length : BitVec 64) (bitmap : Frame) : Vmm :=
  { pmm := pmmInit (fun _ => 0#8) (tablePtr base) length (tablePtr bitmap) 0x1000#64
    pml4 := NULL
    cr3 := Frame.address 1
    taken := []
    tlb := []
    upcoming := fun _ => [] }

theorem pmmInit_zero (base length bitmapBase spare : BitVec 64) :
    (pmmInit (fun _ => 0#8) base length bitmapBase spare).mem = fun _ => 0#8 := by
  have hzero : ∀ a n, memset (fun _ => 0#8) a 0#32 n = fun _ => 0#8 := by
    intro a n
    rw [memset_eq_fill]
    funext x
    simp [Memory.fill]
  simp only [pmmInit, hzero]

/-- The allocator on zeroed memory. -/
def blankPmm (base : Frame) (length : BitVec 64) (bitmap : Frame) : Pmm :=
  { mem := fun _ => 0#8
    file := (pmmInit (fun _ => 0#8) (tablePtr base) length (tablePtr bitmap) 0x1000#64).file }

/-- The same once `vmm_init` has taken the first frame for the PML4. -/
def rootedPmm (base : Frame) (length : BitVec 64) (bitmap : Frame) : Pmm :=
  (blankPmm base length bitmap).withMem
    (((blankPmm base length bitmap).mark 0).mem.copy (tablePtr base) (tablePtr 1) 4096)

theorem pmm_blankCpu (base : Frame) (length : BitVec 64) (bitmap : Frame) :
    (blankCpu base length bitmap).pmm = blankPmm base length bitmap := by
  have hmem := pmmInit_zero (tablePtr base) length (tablePtr bitmap) 0x1000#64
  rw [blankPmm, ← hmem]
  rfl

section Boot

variable {base bitmap : Frame} {length : BitVec 64}
  (hfree : (blankPmm base length bitmap).firstFree = some 0)
include hfree

theorem ptr_blankCpu : (blankCpu base length bitmap).palloc.1 = tablePtr base := by
  have hptr : (blankCpu base length bitmap).palloc.1 =
      (palloc (blankCpu base length bitmap).pmm).1 := rfl
  rw [hptr, pmm_blankCpu, palloc_of_firstFree hfree]
  exact BitVec.add_zero _

theorem pmm_vmmInit (hne : base ≠ 1) :
    (vmmInit (blankCpu base length bitmap)).pmm = rootedPmm base length bitmap := by
  have hafter : (blankCpu base length bitmap).palloc.2.pmm =
      (palloc (blankCpu base length bitmap).pmm).2 := rfl
  have hmem := Vmm.vmmInit_mem (r := 1) (ptr_blankCpu hfree) rfl hne
  have hfile := (Vmm.vmmInit_file (blankCpu base length bitmap)).trans
    (congrArg Pmm.file (pmm_blankCpu base length bitmap))
  rw [hafter, pmm_blankCpu, palloc_of_firstFree hfree] at hmem
  exact Pmm.eq_withMem hmem hfile

end Boot

/-- A table is missing, and `palloc` answers with frame `k`, which is `g`. -/
structure Lacks (p : Pmm) (t : Frame) (k : Nat) (g : Frame) : Prop where
  absent : rd p.mem t 257 &&& pagePresent = 0#64
  free : p.firstFree = some k
  frame : p.frame k = tablePtr g

theorem Lacks.palloc_ptr {s : Vmm} {t g : Frame} {k : Nat} (h : Lacks s.pmm t k g) :
    s.palloc.1 = tablePtr g := by
  have hptr : s.palloc.1 = (palloc s.pmm).1 := rfl
  rw [hptr, palloc_of_firstFree h.free, h.frame]

theorem Lacks.nextTable {s : Vmm} {t g : Frame} {k : Nat} (h : Lacks s.pmm t k g) :
    Asnu.nextTable s (tablePtr t) ((257 : Index).setWidth 64) = (tablePtr g, s.linked t 257 g) :=
  Vmm.nextTable_absent h.absent h.palloc_ptr

/-- The address whose indices are 257, 257, 257 and 0. -/
def sampleVa : Ptr := 0xFFFF80C060200000#64

theorem sampleVa_path :
    (pageOf sampleVa).extractLsb' 27 9 = 257 ∧ (pageOf sampleVa).extractLsb' 18 9 = 257 ∧
      (pageOf sampleVa).extractLsb' 9 9 = 257 := by
  decide

section Missing

/-! `mmap` makes all three tables of `sampleVa`. -/

variable {s : Vmm} {t1 t2 t3 t4 : Frame} {k1 k2 k3 : Nat} (hpml4 : s.pml4 = tablePtr t1)
  (h1 : Lacks s.pmm t1 k1 t2) (h2 : Lacks (s.linked t1 257 t2).pmm t2 k2 t3)
  (h3 : Lacks ((s.linked t1 257 t2).linked t2 257 t3).pmm t3 k3 t4)
include hpml4 h1 h2 h3

theorem mmap_sampleVa (pa flags : BitVec 64) :
    mmap s sampleVa pa flags =
      (((s.linked t1 257 t2).linked t2 257 t3).linked t3 257 t4).rewriteLeaf t4 (pageOf sampleVa)
        (leafEntry pa flags) := by
  have hmmap := mmap_levels s sampleVa pa flags
  simp only [hpml4, sampleVa_path, h1.nextTable, h2.nextTable, h3.nextTable] at hmmap
  exact hmmap

omit h3 in
theorem eachPalloc_sampleVa {P : Vmm → Prop} (hp1 : P s) (hp2 : P (s.linked t1 257 t2))
    (hp3 : P ((s.linked t1 257 t2).linked t2 257 t3)) : s.EachPalloc P sampleVa := by
  obtain ⟨h39, h30, h21, _⟩ := indices_eq sampleVa
  unfold Vmm.EachPalloc
  simp only [h39, h30, h21, sampleVa_path, hpml4, h1.nextTable, h2.nextTable]
  exact ⟨fun _ => hp1, fun _ => hp2, fun _ => hp3⟩

/-- The entry of the last of the tables names the frame taken last. -/
theorem rd_mmap_sampleVa (hne : t3 ≠ t4) (pa flags : BitVec 64) :
    rd (mmap s sampleVa pa flags).pmm.mem t3 257 = Entry.linking t4 := by
  rw [mmap_sampleVa hpml4 h1 h2 h3, Vmm.rd_rewriteLeaf, Vmm.rd_linked, Radix.setEntry,
    if_neg (fun hself => hne hself.1), Radix.link, Radix.setEntry, if_pos ⟨rfl, rfl⟩]

end Missing

/-- `vmm_init` has run and nobody else has called anything. -/
def started (base : Frame) (length : BitVec 64) (bitmap : Frame) : MemSystem :=
  { vmm := vmmInit (blankCpu base length bitmap), live := [] }

/-- Then a client takes a frame. -/
def client (base : Frame) (length : BitVec 64) (bitmap : Frame) : MemSystem :=
  (started base length bitmap).exec (.call .palloc)

/-- A sample region: `vmm_init` takes frame 0 of it, the client frame 1, and
`mmap` of `sampleVa` three more. -/
structure Region (base : Frame) (length : BitVec 64) (bitmap : Frame) (k1 : Nat) (t1 : Frame)
    (k2 : Nat) (t2 : Frame) (k3 : Nat) (t3 : Frame) : Prop where
  boots : (blankPmm base length bitmap).firstFree = some 0
  apart : base ≠ 1
  blank : rd (rootedPmm base length bitmap).mem base 257 = 0#64
  next : (rootedPmm base length bitmap).firstFree = some 1
  given : (rootedPmm base length bitmap).frame 1 = tablePtr (base + 1)
  pdpt : Lacks ((rootedPmm base length bitmap).mark 1) base k1 t1
  pd : Lacks (Vmm.linkedPmm ((rootedPmm base length bitmap).mark 1) k1 base 257 t1) t1 k2 t2
  pt : Lacks (Vmm.linkedPmm (Vmm.linkedPmm ((rootedPmm base length bitmap).mark 1) k1 base 257 t1)
    k2 t1 257 t2) t2 k3 t3

namespace Region

variable {base bitmap t1 t2 t3 : Frame} {length : BitVec 64} {k1 k2 k3 : Nat}
  (h : Region base length bitmap k1 t1 k2 t2 k3 t3)
include h

theorem absent : ∀ i ∈ ({257} : Finset Index),
    ¬ Entry.present (rd (started base length bitmap).vmm.pmm.mem
      (started base length bitmap).vmm.root i) := by
  intro i hi
  rw [Finset.mem_singleton.mp hi, started, pmm_vmmInit h.boots h.apart,
    Vmm.vmmInit_root (ptr_blankCpu h.boots), h.blank]
  decide

theorem palloc_started : palloc (started base length bitmap).vmm.pmm =
    (tablePtr (base + 1), (rootedPmm base length bitmap).mark 1) := by
  rw [started, pmm_vmmInit h.boots h.apart, palloc_of_firstFree h.next, h.given]

theorem client_eq (hnull : tablePtr (base + 1) ≠ NULL) : client base length bitmap =
    { vmm := { vmmInit (blankCpu base length bitmap) with
        pmm := (rootedPmm base length bitmap).mark 1 }
      live := [⟨tablePtr (base + 1), 4096⟩] } := by
  have hcall : (started base length bitmap).ledger.exec .palloc =
      { pmm := (rootedPmm base length bitmap).mark 1
        live := [⟨tablePtr (base + 1), 4096⟩] } := by
    rw [Ledger.exec, MemSystem.ledger, h.palloc_started, Ledger.grant, if_neg hnull]
    rfl
  rw [client, MemSystem.exec, hcall]
  rfl

section Client

variable (hnull : tablePtr (base + 1) ≠ NULL)
include hnull

theorem client_live : (client base length bitmap).live = [⟨tablePtr (base + 1), 4096⟩] := by
  rw [h.client_eq hnull]

theorem client_pmm :
    (client base length bitmap).vmm.pmm = (rootedPmm base length bitmap).mark 1 := by
  rw [h.client_eq hnull]

theorem client_pml4 : (client base length bitmap).vmm.pml4 = tablePtr base := by
  have hkept : (client base length bitmap).vmm.pml4 =
      (vmmInit (blankCpu base length bitmap)).pml4 := by
    rw [h.client_eq hnull]
  rw [hkept, Vmm.vmmInit_pml4, ptr_blankCpu h.boots]

theorem client_root : (client base length bitmap).vmm.root = base := by
  have hkept : (client base length bitmap).vmm.root =
      (vmmInit (blankCpu base length bitmap)).root := by
    rw [h.client_eq hnull, Vmm.root, Vmm.root]
  rw [hkept, Vmm.vmmInit_root (ptr_blankCpu h.boots)]

theorem client_file :
    (client base length bitmap).vmm.pmm.file = (blankPmm base length bitmap).file := by
  rw [h.client_pmm hnull, Pmm.mark_file, rootedPmm, Pmm.withMem_file]

theorem lacks_pdpt : Lacks (client base length bitmap).vmm.pmm base k1 t1 := by
  rw [h.client_pmm hnull]
  exact h.pdpt

theorem lacks_pd : Lacks ((client base length bitmap).vmm.linked base 257 t1).pmm t1 k2 t2 := by
  rw [Vmm.pmm_linked (h.lacks_pdpt hnull).free, h.client_pmm hnull]
  exact h.pd

theorem lacks_pt :
    Lacks (((client base length bitmap).vmm.linked base 257 t1).linked t1 257 t2).pmm t2 k3 t3 := by
  rw [Vmm.pmm_linked (h.lacks_pd hnull).free, Vmm.pmm_linked (h.lacks_pdpt hnull).free,
    h.client_pmm hnull]
  exact h.pt

theorem step_call : MemSystem.Step {257} (started base length bitmap) (.call .palloc)
    (client base length bitmap) := by
  refine ⟨?_, rfl⟩
  rw [MemSystem.Allowed, h.palloc_started]
  exact hnull

/-- Both calls succeed. -/
theorem run {R : MemSystem → MemEvent → Prop} (pa flags : BitVec 64)
    (hcall : R (started base length bitmap) (.call .palloc))
    (hmmap : R (client base length bitmap) (.mmap sampleVa pa flags))
    (h1 : tablePtr t1 ≠ NULL) (h2 : tablePtr t2 ≠ NULL) (h3 : tablePtr t3 ≠ NULL) :
    Run (fun s e s' => MemSystem.Step {257} s e s' ∧ R s e) (started base length bitmap)
      [.call .palloc, .mmap sampleVa pa flags]
      ((client base length bitmap).exec (.mmap sampleVa pa flags)) := by
  have hslot : Vmm.slot sampleVa ∈ ({257} : Finset Index) := by decide
  have hserved := eachPalloc_sampleVa (h.client_pml4 hnull) (h.lacks_pdpt hnull)
    (h.lacks_pd hnull) (P := fun u => u.palloc.1 ≠ NULL)
    (by rw [(h.lacks_pdpt hnull).palloc_ptr]; exact h1)
    (by rw [(h.lacks_pd hnull).palloc_ptr]; exact h2)
    (by rw [(h.lacks_pt hnull).palloc_ptr]; exact h3)
  exact Run.cons ⟨h.step_call hnull, hcall⟩
    (Run.cons ⟨⟨⟨hslot, hserved⟩, rfl⟩, hmmap⟩ (Run.nil _))

/-- The frames for the tables of `sampleVa` may be taken. -/
theorem takes_sampleVa (hfine : ∀ f ∈ [t1, t2, t3],
      tablePtr f ≠ NULL ∧ (blankPmm base length bitmap).MissesBitmap (tablePtr f)) :
    (client base length bitmap).vmm.EachPalloc Vmm.Takes sampleVa := by
  have htakes : ∀ {s : Vmm} {t g : Frame} {k : Nat}, Lacks s.pmm t k g → g ∈ [t1, t2, t3] →
      s.pmm.file = (blankPmm base length bitmap).file → s.Takes := by
    intro s t g k hlacks hg hfile
    obtain ⟨hne, hmiss⟩ := hfine g hg
    exact ⟨g, hlacks.palloc_ptr, by rwa [hlacks.palloc_ptr], hmiss.of_file_eq hfile⟩
  have hfile := h.client_file hnull
  exact eachPalloc_sampleVa (h.client_pml4 hnull) (h.lacks_pdpt hnull) (h.lacks_pd hnull)
    (htakes (h.lacks_pdpt hnull) (by simp) hfile)
    (htakes (h.lacks_pd hnull) (by simp) ((Vmm.linked_file _ _ _ _).trans hfile))
    (htakes (h.lacks_pt hnull) (by simp)
      ((Vmm.linked_file _ _ _ _).trans ((Vmm.linked_file _ _ _ _).trans hfile)))

end Client

end Region

/-- Two frames at 0x100, with the bitmap right behind them: its only byte counts
the bitmap's own frame as the third of the region. -/
theorem region_twoFrames : Region 0x100 0x2000#64 0x102 2 0x102 0 0x100 1 0x101 where
  boots := by decide +kernel
  apart := by decide
  blank := by decide +kernel
  next := by decide +kernel
  given := by decide +kernel
  pdpt := ⟨by decide +kernel, by decide +kernel, by decide +kernel⟩
  pd := ⟨by decide +kernel, by decide +kernel, by decide +kernel⟩
  pt := ⟨by decide +kernel, by decide +kernel, by decide +kernel⟩

/-- Eight frames at 8, the bitmap far away. -/
theorem region_eightFrames : Region 8 0x8000#64 0x100 2 10 3 11 4 12 where
  boots := by decide +kernel
  apart := by decide
  blank := by decide +kernel
  next := by decide +kernel
  given := by decide +kernel
  pdpt := ⟨by decide +kernel, by decide +kernel, by decide +kernel⟩
  pd := ⟨by decide +kernel, by decide +kernel, by decide +kernel⟩
  pt := ⟨by decide +kernel, by decide +kernel, by decide +kernel⟩

theorem Region.takes {base bitmap t1 t2 t3 : Frame} {length : BitVec 64} {k1 k2 k3 : Nat}
    (h : Region base length bitmap k1 t1 k2 t2 k3 t3) (hnull : tablePtr base ≠ NULL)
    (hmiss : (blankPmm base length bitmap).MissesBitmap (tablePtr base)) :
    (blankCpu base length bitmap).Takes := by
  refine ⟨base, ptr_blankCpu h.boots, by rwa [ptr_blankCpu h.boots], ?_⟩
  rw [pmm_blankCpu]
  exact hmiss

theorem fine_eightFrames : ∀ f ∈ [(10 : Frame), 11, 12],
    tablePtr f ≠ NULL ∧ (blankPmm 8 0x8000#64 0x100).MissesBitmap (tablePtr f) := by
  intro f hf
  simp only [List.mem_cons, List.not_mem_nil, or_false] at hf
  unfold Pmm.MissesBitmap
  rcases hf with rfl | rfl | rfl <;> decide +kernel

theorem takes_eightFrames : (blankCpu 8 0x8000#64 0x100).Takes :=
  region_eightFrames.takes (by decide) (by unfold Pmm.MissesBitmap; decide +kernel)

theorem run_client : Run (fun s e s' => MemSystem.Step {257} s e s' ∧ s.Spares e)
    (started 8 0x8000#64 0x100) [.call .palloc] (client 8 0x8000#64 0x100) :=
  Run.cons ⟨region_eightFrames.step_call (by decide), trivial⟩ (Run.nil _)

theorem takes_client : (client 8 0x8000#64 0x100).vmm.EachPalloc Vmm.Takes sampleVa :=
  region_eightFrames.takes_sampleVa (by decide) fine_eightFrames

theorem owned_client :
    Vmm.Owned {257} (client 8 0x8000#64 0x100).live (client 8 0x8000#64 0x100).vmm :=
  MemSystem.owned_of_run (Vmm.owned_vmmInit
    (pmmInit_sized _ (tablePtr 8) 0x8000#64 (tablePtr 0x100) 0x1000#64)
    rfl takes_eightFrames region_eightFrames.absent) run_client

end Sample

open Sample in
/-- The bitmap's frame is taken for a table and zeroed, so a frame that a client
holds is taken again and linked under the PML4. -/
theorem client_frame_becomes_table :
    (blankCpu 0x100 0x2000#64 0x102).Takes ∧
      ∃ t, Run (MemSystem.Step {257}) (started 0x100 0x2000#64 0x102)
          [.call .palloc, .mmap sampleVa 0#64 0#64] t ∧
        t.vmm.Upper {257} 0x100 257 ∧
        ∃ b ∈ t.live, b.ptr = tablePtr (Entry.frame (t.vmm.view {257} 0x100 257)) := by
  have h := region_twoFrames
  have hnull : tablePtr (0x100 + 1) ≠ NULL := by decide
  have hroot : ((client 0x100 0x2000#64 0x102).exec (.mmap sampleVa 0#64 0#64)).vmm.root =
      0x100 := by
    rw [MemSystem.exec_mmap_vmm, mmap_sampleVa (h.client_pml4 hnull) (h.lacks_pdpt hnull)
      (h.lacks_pd hnull) (h.lacks_pt hnull), Vmm.rewriteLeaf, Vmm.storeLeaf_root,
      Vmm.storeLeaf_root, Vmm.linked_root, Vmm.linked_root, Vmm.linked_root,
      h.client_root hnull]
  have hview : ((client 0x100 0x2000#64 0x102).exec
      (.mmap sampleVa 0#64 0#64)).vmm.view {257} 0x100 257 = Entry.linking 0x101 := by
    rw [Vmm.Owned.view_eq (fun _ => Finset.mem_singleton_self _), MemSystem.exec_mmap_vmm]
    exact rd_mmap_sampleVa (h.client_pml4 hnull) (h.lacks_pdpt hnull) (h.lacks_pd hnull)
      (h.lacks_pt hnull) (by decide) 0#64 0#64
  refine ⟨h.takes (by decide) (by unfold Pmm.MissesBitmap; decide +kernel), _,
    (h.run (R := fun _ _ => True) hnull 0#64 0#64 trivial trivial (by decide) (by decide)
      (by decide)).mono (fun _ _ _ hstep => hstep.1), ?_, ⟨tablePtr (0x100 + 1), 4096⟩, ?_, ?_⟩
  · exact ⟨[], by decide, congrArg some hroot, by rw [hview]; decide⟩
  · rw [MemSystem.exec_mmap_live, h.client_live hnull]
    exact List.mem_singleton_self _
  · rw [hview]
    decide

open Sample in
theorem table_frames_owned_oneTree :
    ∃ t made, Run (fun s e s' => MemSystem.Step {257} s e s' ∧ s.Spares e)
        (started 8 0x8000#64 0x100) [.call .palloc, .mmap sampleVa 0#64 0#64] t ∧
      t.vmm.taken = made ++ [t.vmm.pml4] ∧
      ∀ f i, t.vmm.Upper {257} f i → ∃ p ∈ made, p ≠ t.vmm.pml4 ∧ ∀ b ∈ t.live, b.ptr ≠ p := by
  have h := region_eightFrames
  have hnull : tablePtr (8 + 1) ≠ NULL := by decide
  have htakes := h.takes_sampleVa hnull fine_eightFrames
  have hrun := h.run hnull 0#64 0#64 (R := MemSystem.Spares) trivial
    (MemSystem.spares_mmap htakes 0#64 0#64) (by decide) (by decide) (by decide)
  obtain ⟨made, hmade, hupper, _⟩ := table_frames_owned (fun _ => 0#8) (tablePtr 8) 0x8000#64
    (tablePtr 0x100) 0x1000#64 (blankCpu 8 0x8000#64 0x100) rfl rfl
    takes_eightFrames {257} h.absent _ _ hrun
  refine ⟨_, made, hrun, hmade, fun f i hi => ?_⟩
  obtain ⟨p, hp, _, _, hpml4, hlive⟩ := hupper f i hi
  exact ⟨p, hp, hpml4, hlive⟩

end Asnu
