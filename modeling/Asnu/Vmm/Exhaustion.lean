import Asnu.Lib.Stores
import Asnu.Vmm.Rights

/-!
`mmap` when the allocator has nothing left. The pointer that `palloc` returns
is not looked at: the page at `NULL` is zeroed, linked as a table and filled
like one.
-/

namespace Asnu

open Lib

/-- `palloc` store by store: a bit is set when one is found. -/
def pallocCode : Storing Vmm Ptr := do
  let found ← Logging.look (fun s => s.pmm.firstFree)
  let bm ← Logging.look (fun s => s.pmm.file.bitmapBase)
  let base ← Logging.look (fun s => s.pmm.file.base)
  match found with
  | some index => do
      let p := base + BitVec.ofNat 64 index * 4096#64
      Storing.store (Bitmap.slot bm index) 1
        (fun s => { s.accesses with
          pmm := { s.pmm with mem := Bitmap.set s.pmm.mem bm index }
          taken := p :: s.taken })
      pure p
  | none => do
      Logging.note (fun s => { s.accesses with taken := NULL :: s.taken })
      pure NULL

def nextTableCode (table : Ptr) (i : BitVec 64) : Storing Vmm Ptr := do
  let entry ← Logging.look (fun s => s.load table i)
  if entry &&& pagePresent = 0#64 then do
    let p ← pallocCode
    Storing.store p 4096 (fun s => s.memset p 0#32 4096#64)
    Storing.store (table + i * 8#64) 8
      (fun s => s.store table i (va2paU64 p ||| pagePresent ||| pageRw))
    pure p
  else pure (pa2vaU64 (entry &&& ~~~0xFFF#64))

def mmapCode (va pa : Ptr) (flags : BitVec 64) : Storing Vmm Unit := do
  let pml4 ← Logging.look (fun s => s.pml4)
  let pml4Index := (va >>> 39) &&& 0x1FF#64
  let pdptIndex := (va >>> 30) &&& 0x1FF#64
  let pdIndex := (va >>> 21) &&& 0x1FF#64
  let ptIndex := (va >>> 12) &&& 0x1FF#64
  let pdpt ← nextTableCode pml4 pml4Index
  let pd ← nextTableCode pdpt pdptIndex
  let pt ← nextTableCode pd pdIndex
  Storing.store (pt + ptIndex * 8#64) 8 (fun s => s.store pt ptIndex 0#64)
  Storing.store (pt + ptIndex * 8#64) 8 (fun s => s.store pt ptIndex (leafEntry pa flags))

/-! ### The programs are `palloc` and `mmap` -/

theorem pallocCode_alone (s : Vmm) : pallocCode.alone s = s.palloc := by
  have hpalloc : s.palloc = ((palloc s.pmm).1,
      { s.accesses with pmm := (palloc s.pmm).2, taken := (palloc s.pmm).1 :: s.taken }) := rfl
  rw [hpalloc, palloc_eq]
  cases hfree : s.pmm.firstFree with
  | none => simp [pallocCode, hfree, Vmm.accesses]
  | some index => simp [pallocCode, hfree, Pmm.frame, Pmm.mark]

theorem nextTableCode_alone (s : Vmm) (table : Ptr) (i : BitVec 64) :
    (nextTableCode table i).alone s = nextTable s table i := by
  rw [nextTableCode, Logging.alone_look_bind, nextTable]
  by_cases hzero : s.load table i &&& pagePresent = 0#64
  · rw [if_pos hzero, if_pos hzero, Prog.alone_bind, pallocCode_alone]
    rfl
  · rw [if_neg hzero, if_neg hzero, Prog.alone_pure]

theorem mmapCode_alone (s : Vmm) (va pa : Ptr) (flags : BitVec 64) :
    (mmapCode va pa flags).alone s = ((), mmap s va pa flags) := by
  dsimp only [mmapCode, mmap]
  rw [Logging.alone_look_bind, Prog.alone_bind, nextTableCode_alone, Prog.alone_bind,
    nextTableCode_alone, Prog.alone_bind, nextTableCode_alone]
  rfl

namespace Vmm

theorem store_out {s : Vmm} {x table : Ptr} {i : BitVec 64} (e : Entry)
    (hx : ¬ InRange (table + i * 8#64) 8 x) :
    (s.store table i e).pmm.mem x = s.pmm.mem x := by
  rw [store, withMem_mem]
  exact Memory.store64_out _ _ hx

theorem memset_out {s : Vmm} {x p : Ptr} (hx : ¬ InRange p 4096 x) :
    (s.memset p 0#32 4096#64).pmm.mem x = s.pmm.mem x := by
  rw [memset, withMem_mem, memset_eq_fill]
  exact Memory.fill_out _ _ hx

end Vmm

theorem pallocCode_honest : Storing.Honest (fun s : Vmm => s.pmm.mem) pallocCode := by
  refine (Storing.Honest.look _).bind (fun found => (Storing.Honest.look _).bind (fun bm =>
    (Storing.Honest.look _).bind (fun base => ?_)))
  cases found with
  | none =>
      refine Storing.Honest.bind (Storing.Honest.note ?_) (fun _ => Storing.Honest.pure _)
      exact fun _ => rfl
  | some index =>
      refine Storing.Honest.bind (Storing.Honest.store ?_) (fun _ => Storing.Honest.pure _)
      intro s x hx
      refine Bitmap.set_out _ ?_
      rintro rfl
      exact hx (by simp [InRange])

theorem nextTableCode_honest (table : Ptr) (i : BitVec 64) :
    Storing.Honest (fun s : Vmm => s.pmm.mem) (nextTableCode table i) := by
  refine (Storing.Honest.look _).bind (fun entry => Storing.Honest.ite (fun _ => ?_)
    (fun _ => Storing.Honest.pure _))
  refine pallocCode_honest.bind (fun p => ?_)
  refine (Storing.Honest.store (fun _ _ => Vmm.memset_out)).bind (fun _ => ?_)
  exact (Storing.Honest.store (fun _ _ => Vmm.store_out _)).bind
    (fun _ => Storing.Honest.pure _)

theorem mmapCode_honest (va pa : Ptr) (flags : BitVec 64) :
    Storing.Honest (fun s : Vmm => s.pmm.mem) (mmapCode va pa flags) := by
  refine (Storing.Honest.look _).bind (fun pml4 => ?_)
  refine (nextTableCode_honest _ _).bind (fun pdpt => (nextTableCode_honest _ _).bind
    (fun pd => (nextTableCode_honest _ _).bind (fun pt => ?_)))
  exact (Storing.Honest.store (fun _ _ => Vmm.store_out _)).bind
    (fun _ => Storing.Honest.store (fun _ _ => Vmm.store_out _))

namespace Vmm

variable {s : Vmm}

/-- What a request that fails should leave: all translations, no entry that leads
to something else than a table, and nothing written at address 0. -/
structure Unharmed (code : Storing Vmm Unit) (s : Vmm) : Prop where
  translate : ∀ page, (code.alone s).2.translate page = s.translate page
  tables : ∀ f, (code.alone s).2.IsTable f →
    s.IsTable f ∨ (tablePtr f ∈ (code.alone s).2.taken ∧ tablePtr f ≠ NULL)
  stores : ∀ w ∈ code.stores s, ¬ w.Has NULL

/-- `palloc` returns `NULL` at a level that `mmap` has to make. -/
def Exhausted (s : Vmm) (va : Ptr) : Prop :=
  ¬ s.EachPalloc (fun u => u.palloc.1 ≠ NULL) va

/-- One level of `mmap` zeroes the page that it gets, whatever it is. -/
theorem nextTableCode_stores_null {table : Ptr} {i : BitVec 64}
    (hzero : s.load table i &&& pagePresent = 0#64) (hnull : s.palloc.1 = NULL) :
    ∃ w ∈ (nextTableCode table i).stores s, w.Has NULL := by
  refine ⟨⟨s.palloc.1, 4096⟩, ?_, ?_⟩
  · rw [nextTableCode, Logging.stores_look_bind, if_pos hzero, Logging.stores_bind,
      pallocCode_alone]
    exact List.mem_append_right _ List.mem_cons_self
  · rw [hnull]
    decide

/-- The page at `NULL` is zeroed. -/
theorem Exhausted.stores {va : Ptr} (h : s.Exhausted va) (pa : Ptr) (flags : BitVec 64) :
    ∃ w ∈ (mmapCode va pa flags).stores s, w.Has NULL := by
  by_contra hnone
  simp only [not_exists, not_and] at hnone
  unfold mmapCode at hnone
  rw [Logging.stores_look_bind, Logging.stores_bind, nextTableCode_alone, Logging.stores_bind,
    nextTableCode_alone, Logging.stores_bind, nextTableCode_alone, List.forall_mem_append,
    List.forall_mem_append, List.forall_mem_append] at hnone
  obtain ⟨hpml4, hpdpt, hpd, _⟩ := hnone
  have hlevel : ∀ {u : Vmm} {table : Ptr} {i : BitVec 64},
      (∀ w ∈ (nextTableCode table i).stores u, ¬ w.Has NULL) →
      u.load table i &&& pagePresent = 0#64 → u.palloc.1 ≠ NULL := by
    intro u table i hstores hzero hnull
    obtain ⟨w, hw, hin⟩ := nextTableCode_stores_null hzero hnull
    exact hstores w hw hin
  exact h ⟨hlevel hpml4, hlevel hpdpt, hlevel hpd⟩

end Vmm

/-- Whatever the tables are and at whichever level the allocator gives out,
`mmap` does not leave the memory as it should: of the bytes it stores to, which
are all those it changes, one is at address 0. -/
theorem mmap_exhausted_harms (s : Vmm) (va pa : Ptr) (flags : BitVec 64)
    (hexhausted : s.Exhausted va) :
    (mmapCode va pa flags).alone s = ((), mmap s va pa flags) ∧
      (∀ x, (mmap s va pa flags).pmm.mem x ≠ s.pmm.mem x →
        ∃ w ∈ (mmapCode va pa flags).stores s, w.Has x) ∧
      ¬ Vmm.Unharmed (mmapCode va pa flags) s := by
  have halone := mmapCode_alone s va pa flags
  refine ⟨halone, fun x hchanged => ?_, fun hunharmed => ?_⟩
  · refine (mmapCode_honest va pa flags).has_of_changed ?_
    rw [halone]
    exact hchanged
  · obtain ⟨w, hw, hin⟩ := hexhausted.stores pa flags
    exact hunharmed.stores w hw hin

namespace Sample

/-- A CPU whose allocator has no frames, with an empty PML4 in frame 1. -/
def barren : Vmm :=
  { pmm :=
      { mem := fun _ => 0#8
        file := (pmmInit (fun _ => 0#8) (tablePtr 8) 0#64 (tablePtr 0x100) 0x1000#64).file }
    pml4 := tablePtr 1
    cr3 := Frame.address 1
    taken := []
    tlb := []
    upcoming := fun _ => [] }

/-- The frame that the direct map shows at `NULL`. -/
def nullFrame : Frame := 0x800000000

theorem tablePtr_nullFrame : tablePtr nullFrame = NULL := by decide

/-- An allocator with an empty bitmap answers with `NULL` and changes nothing. -/
theorem palloc_empty {s : Vmm} (hfile : s.pmm.file = barren.pmm.file) :
    s.palloc.1 = tablePtr nullFrame ∧ s.palloc.2.pmm = s.pmm := by
  have hcount : s.pmm.bitCount = 0 := by
    rw [Pmm.bitCount, hfile]
    rfl
  have hfree : s.pmm.firstFree = none :=
    Pmm.firstFree_eq_none.mpr (fun j hj => absurd (hcount ▸ hj) (Nat.not_lt_zero j))
  have hpalloc : Asnu.palloc s.pmm = (NULL, s.pmm) := by
    rw [palloc_eq, hfree]
  exact ⟨(congrArg Prod.fst hpalloc).trans tablePtr_nullFrame.symm, congrArg Prod.snd hpalloc⟩

/-- The PML4 after the first level, and the page at `NULL` after the second. -/
def misled : Vmm := (barren.linked 1 257 nullFrame).linked nullFrame 257 nullFrame

theorem rd_barren : rd barren.pmm.mem = fun _ _ => 0#64 := by
  funext f i
  exact Memory.load64_of_zero (fun _ _ => rfl)

theorem rd_linked_empty {s : Vmm} (hfile : s.pmm.file = barren.pmm.file) (t : Frame)
    (i : Index) :
    rd (s.linked t i nullFrame).pmm.mem =
      Radix.link (rd s.pmm.mem) t i nullFrame (Entry.linking nullFrame) 0#64 := by
  rw [Vmm.rd_linked, (palloc_empty hfile).2]

theorem rd_misled : rd misled.pmm.mem = Radix.link (Radix.link (fun _ _ => 0#64) 1 257 nullFrame
    (Entry.linking nullFrame) 0#64) nullFrame 257 nullFrame (Entry.linking nullFrame) 0#64 := by
  have hfirst : rd (barren.linked 1 257 nullFrame).pmm.mem =
      Radix.link (fun _ _ => 0#64) 1 257 nullFrame (Entry.linking nullFrame) 0#64 := by
    rw [rd_linked_empty (Eq.refl barren.pmm.file), rd_barren]
  rw [misled, rd_linked_empty (Vmm.linked_file barren 1 257 nullFrame), hfirst]

/-- The entry that the second level stores is the one that the third follows. -/
theorem mmap_barren (pa flags : BitVec 64) : mmap barren sampleVa pa flags =
    misled.rewriteLeaf nullFrame (pageOf sampleVa) (leafEntry pa flags) := by
  have hfile : (barren.linked 1 257 nullFrame).pmm.file = barren.pmm.file :=
    Vmm.linked_file _ _ _ _
  have hload : barren.load (tablePtr 1) ((257 : Index).setWidth 64) &&& pagePresent = 0#64 := by
    rw [Vmm.load_eq_rd, rd_barren]
    rfl
  have hload1 : (barren.linked 1 257 nullFrame).load (tablePtr nullFrame)
      ((257 : Index).setWidth 64) &&& pagePresent = 0#64 := by
    rw [Vmm.load_eq_rd, rd_linked_empty (s := barren) rfl, rd_barren]
    decide
  have hload2 : misled.load (tablePtr nullFrame) ((257 : Index).setWidth 64) =
      Entry.linking nullFrame := by
    rw [Vmm.load_eq_rd, rd_misled]
    decide
  have hnext1 := Vmm.nextTable_absent hload (palloc_empty rfl).1
  have hnext2 : nextTable (barren.linked 1 257 nullFrame) (tablePtr nullFrame)
      ((257 : Index).setWidth 64) = (tablePtr nullFrame, misled) :=
    Vmm.nextTable_absent hload1 (palloc_empty hfile).1
  have hnext3 : nextTable misled (tablePtr nullFrame) ((257 : Index).setWidth 64) =
      (tablePtr nullFrame, misled) :=
    Vmm.nextTable_present (by rw [hload2]; decide) (by rw [hload2]; decide)
  have hpml4 : barren.pml4 = tablePtr 1 := rfl
  have hmmap := mmap_levels barren sampleVa pa flags
  simp only [hpml4, sampleVa_path, hnext1, hnext2, hnext3] at hmmap
  exact hmmap

theorem exhausted_barren : barren.Exhausted sampleVa := by
  intro hall
  refine hall.1 ?_ ((palloc_empty rfl).1.trans tablePtr_nullFrame)
  rw [(indices_eq sampleVa).1, sampleVa_path.1]
  exact congrArg (fun t => t 1 257 &&& pagePresent) rd_barren

end Sample

open Sample in
theorem mmap_exhausted_harms_barren :
    ¬ Vmm.Unharmed (mmapCode sampleVa 0x5000#64 pageRw) barren :=
  (mmap_exhausted_harms barren sampleVa 0x5000#64 pageRw exhausted_barren).2.2

open Sample in
/-- Without any frame, `mmap` leads the address to the page at `NULL` as its
table three times over and maps it there. -/
theorem mmap_without_frames_maps :
    barren.Exhausted sampleVa ∧ barren.translate (pageOf sampleVa) = none ∧
      (mmap barren sampleVa 0x5000#64 pageRw).translate (pageOf sampleVa) =
        some { frame := 5, flags := 3#12, writable := true, user := false, executable := true } ∧
      (mmap barren sampleVa 0x5000#64 pageRw).node [257, 257, 257] = some nullFrame ∧
      rd barren.pmm.mem nullFrame 0 = 0#64 ∧
      rd (mmap barren sampleVa 0x5000#64 pageRw).pmm.mem nullFrame 0 = 0x5003#64 := by
  have hrd : rd (mmap barren sampleVa 0x5000#64 pageRw).pmm.mem =
      Radix.setEntry (Radix.link (Radix.link (fun _ _ => 0#64) 1 257 nullFrame
        (Entry.linking nullFrame) 0#64) nullFrame 257 nullFrame (Entry.linking nullFrame) 0#64)
        nullFrame 0 0x5003#64 := by
    rw [mmap_barren, Vmm.rd_rewriteLeaf, rd_misled]
    rfl
  have hroot : (mmap barren sampleVa 0x5000#64 pageRw).root = 1 := by
    rw [mmap_barren, Vmm.rewriteLeaf_root, misled, Vmm.linked_root, Vmm.linked_root]
    decide
  refine ⟨exhausted_barren, ?_, ?_, ?_, ?_, ?_⟩
  · rw [Vmm.translate, translate, entries, rd_barren]
    decide
  · rw [Vmm.translate, translate, entries, hrd, hroot]
    decide +kernel
  · rw [Vmm.node, hrd, hroot]
    decide +kernel
  · rw [rd_barren]
  · rw [hrd]
    decide +kernel

end Asnu
