import Asnu.Lib.Run
import Asnu.Vmm.Calls

/-!
Page tables with 4 KiB leaves only are a partial map from pages to a physical
address and flags: `mmap` sets the map at its page, `unmap` clears it, and no
other page notices.
-/

namespace Asnu

open Lib

/-- What a page table is for: some pages have an address and flags. -/
abbrev PageMap := Page → Option (BitVec 64 × BitVec 64)

namespace PageMap

/-- What a request leaves at the page it names. -/
def value : Vmm.Request → Option (BitVec 64 × BitVec 64)
  | .mmap _ pa flags => some (pa &&& ~~~0xFFF#64, (flags &&& 0xFFF#64) ||| pagePresent)
  | .unmap _ => none

def after (f : PageMap) (r : Vmm.Request) : PageMap := Function.update f r.page (value r)

/-- What the last request on a page left there, or what was there before. -/
def last (f : PageMap) (rs : List Vmm.Request) (page : Page) :
    Option (BitVec 64 × BitVec 64) :=
  match (rs.filter (fun r => r.page = page)).getLast? with
  | some r => value r
  | none => f page

/-- A map that has the new value at the page of a request and is `f` elsewhere
is `f` after that request. -/
theorem eq_after {f g : PageMap} {r : Vmm.Request} (hself : g r.page = value r)
    (hother : ∀ page, page ≠ r.page → g page = f page) (page : Page) :
    g page = f.after r page := by
  by_cases hpage : page = r.page
  · rw [hpage, after, Function.update_self, hself]
  · rw [after, Function.update_of_ne hpage, hother page hpage]

theorem foldl_after (f : PageMap) (rs : List Vmm.Request) (page : Page) :
    rs.foldl after f page = f.last rs page := by
  induction rs using List.reverseRecOn with
  | nil => rfl
  | append_singleton rs r ih =>
      rw [List.foldl_append, List.foldl_cons, List.foldl_nil, after, last,
        List.filter_append]
      by_cases h : r.page = page
      · obtain rfl := h
        simp
      · rw [Function.update_of_ne (Ne.symm h), ih]
        simp [h, last]

end PageMap

/-- The address and flags that a leaf entry gives. -/
def Translation.mapping (t : Translation) : BitVec 64 × BitVec 64 :=
  (t.frame.address, t.flags.setWidth 64)

theorem low_flags_toNat (flags : BitVec 64) :
    ((flags &&& 0xFFF#64) ||| pagePresent).toNat < 4096 := by
  have hmask : (flags &&& 0xFFF#64).toNat < 2 ^ 12 := by
    rw [BitVec.toNat_and]
    exact Nat.and_lt_two_pow _ (by decide)
  rw [BitVec.toNat_or]
  exact Nat.or_lt_two_pow hmask (by decide)

/-- The walk takes the leaf entry apart the way `mmap` put it together. -/
theorem mapping_leafEntry (page : Page) (es : List Entry) (h : es.length = 3)
    {pa : Ptr} (hpa : pa.toNat < 2 ^ 52) (flags : BitVec 64) :
    (Translation.ofEntries page (es ++ [leafEntry pa flags])).map Translation.mapping =
      some (pa &&& ~~~0xFFF#64, (flags &&& 0xFFF#64) ||| pagePresent) := by
  have hlow := low_flags_toNat flags
  have hleaf : leafEntry pa flags =
      Frame.address (pa.extractLsb' 12 40) ||| ((flags &&& 0xFFF#64) ||| pagePresent) := by
    rw [leafEntry, clear_low_bits pa hpa, BitVec.or_assoc]
  have hframe : Entry.frame (leafEntry pa flags) = pa.extractLsb' 12 40 := by
    rw [hleaf, frame_address_or _ hlow]
  have hflags : ((leafEntry pa flags).setWidth 12).setWidth 64 =
      (flags &&& 0xFFF#64) ||| pagePresent := by
    apply BitVec.eq_of_toNat_eq
    rw [BitVec.toNat_setWidth, BitVec.toNat_setWidth, hleaf, address_or_toNat _ hlow]
    omega
  have hpresent := leafEntry_present pa flags
  rw [clear_low_bits pa hpa]
  simp [Translation.ofEntries, hpresent, Translation.leafFrame, h, Translation.mapping,
    hframe, hflags]

namespace Vmm

def mapping (s : Vmm) : PageMap := fun page => (s.translate page).map Translation.mapping

/-- Only 4 KiB leaves, and no bit above 51 in an entry that leads on. -/
def Clean (s : Vmm) : Prop :=
  ∀ q t j, s.node q = some t → q.length < 3 → Entry.present (rd s.pmm.mem t j) →
    Entry.Plain q.length (rd s.pmm.mem t j)

theorem Clean.plainPath {s : Vmm} (h : s.Clean) (page : Page) : s.PlainPath page := by
  intro k hk e he hpresent
  obtain ⟨p, t, i, _, _, rfl, ht, rfl⟩ := Radix.walk_getElem?_inv _ _ he
  exact h p t i ht hk hpresent

theorem Clean.extends {fresh : List Ptr} {s s' : Vmm} (h : s.Clean)
    (hext : Extends fresh s s') : s'.Clean := by
  intro q t j ht hq hpresent
  rcases hext.entry q t j ht with ⟨hold, heq⟩ | hzero | ⟨f, hlink⟩
  · rw [heq] at hpresent ⊢
    exact h q t j hold hq hpresent
  · rw [hzero] at hpresent
    exact absurd hpresent (by decide)
  · rw [hlink]
    exact Entry.linking_plain _ f

/-- A store into a last table is not a store into an entry that leads on. -/
theorem rd_upper_unchanged {s : Vmm} (hs : s.Tree) {page : Page} {pt : Frame}
    (hpt : s.node (upper page) = some pt) {q : List Index} {t : Frame} {j : Index}
    (ht : s.node q = some t) (hq : q.length < 3) (e : Entry) :
    Radix.setEntry (rd s.pmm.mem) pt (lastIndex page) e t j = rd s.pmm.mem t j := by
  refine if_neg ?_
  rintro ⟨rfl, _⟩
  have hupper := hs.unshared.node_inj ht hpt
  rw [hupper] at hq
  exact absurd hq (by simp [upper])

theorem Clean.storeLeaf {s : Vmm} (h : s.Clean) (hs : s.Tree) {page : Page} {pt : Frame}
    (hpt : s.node (upper page) = some pt) (e : Entry) :
    (s.storeLeaf pt page e).Clean := by
  intro q t j ht hq hpresent
  rw [node_storeLeaf hs hpt] at ht
  rw [rd_storeLeaf, rd_upper_unchanged hs hpt ht hq] at hpresent ⊢
  exact h q t j ht hq hpresent

theorem Clean.rewriteLeaf {s : Vmm} (h : s.Clean) (hs : s.Tree) {page : Page} {pt : Frame}
    (hpt : s.node (upper page) = some pt) (e : Entry) :
    (s.rewriteLeaf pt page e).Clean :=
  (h.storeLeaf hs hpt 0#64).storeLeaf (tree_storeLeaf hs hpt)
    ((node_storeLeaf hs hpt _).trans hpt) e

/-- `palloc` succeeds with a frame that is no table of the tree. -/
def Fresh (s : Vmm) : Prop :=
  ∃ f, (Asnu.palloc s.pmm).1 = tablePtr f ∧ (Asnu.palloc s.pmm).1 ≠ NULL ∧ ¬ s.IsTable f

/-- The allocator keeps its bitmap in no table. -/
def RecordsApart (s : Vmm) : Prop :=
  ∀ g, s.IsTable g → ∀ x, InRange (tablePtr g) 4096 x → ¬ s.Records x

/-- What the requests of a run rely on: physical addresses have 52 bits, and each `palloc`
of `mmap` succeeds. -/
def Allowed (s : Vmm) : Request → Prop
  | .mmap va pa _ => pa.toNat < 2 ^ 52 ∧ s.EachPalloc Fresh va
  | .unmap _ => True

/-- Whenever `palloc` is called it sets its bit outside of the tables. -/
def Spares (s : Vmm) : Request → Prop
  | .mmap va _ _ => s.EachPalloc RecordsApart va
  | .unmap _ => True

theorem supplied_of_fresh {s : Vmm} {va : Ptr} (hfresh : s.EachPalloc Fresh va)
    (hspares : s.EachPalloc RecordsApart va) : s.Supplied va := by
  have hgrants : ∀ u : Vmm, u.Fresh → u.RecordsApart → ∃ f, u.Grants f :=
    fun u ⟨f, hptr, hne, htable⟩ hrecords => ⟨f, hptr, hne, htable, hrecords⟩
  exact hfresh.and hspares hgrants

def Step (s : Vmm) (r : Request) (s' : Vmm) : Prop := s.Allowed r ∧ s' = s.exec r

/-- A tree with 4 KiB leaves only that translates as the map says. -/
structure Maps (s : Vmm) (f : PageMap) : Prop where
  tree : s.Tree
  clean : s.Clean
  mapping : ∀ page, s.mapping page = f page

theorem Maps.mmap {s : Vmm} {f : PageMap} (h : s.Maps f) {va pa : Ptr}
    (flags : BitVec 64) (hpa : pa.toNat < 2 ^ 52) (hsupplied : s.Supplied va) :
    (Asnu.mmap s va pa flags).Maps (f.after (.mmap va pa flags)) := by
  obtain ⟨fresh, m, pt, hext, hpt, heq⟩ :=
    mmap_spec h.tree (h.clean.plainPath _) hsupplied pa flags
  rw [heq]
  refine ⟨tree_rewriteLeaf hext.tree hpt,
    (h.clean.extends hext).rewriteLeaf hext.tree hpt _, PageMap.eq_after ?_ ?_⟩
  · have hlen : (Radix.walk Entry.next (rd m.pmm.mem) 0 m.root
        (upper (pageOf va))).length = 3 := Radix.length_walk _ _ 0 _ _ hpt
    rw [Request.page, Vmm.mapping, translate_rewriteLeaf hext.tree hpt]
    exact mapping_leafEntry _ _ hlen hpa flags
  · intro page hpage
    rw [← h.mapping page, Vmm.mapping, Vmm.mapping,
      translate_rewriteLeaf_other hext.tree hpt hpage, hext.translate page]

theorem Maps.unmap {s : Vmm} {f : PageMap} (h : s.Maps f) (va : Ptr) :
    (Asnu.unmap s va).Maps (f.after (.unmap va)) := by
  rcases unmap_spec h.tree (h.clean.plainPath (pageOf va)) with ⟨heq, hnone⟩ | ⟨pt, hpt, heq⟩
  · rw [heq]
    refine ⟨h.tree, h.clean, PageMap.eq_after ?_ (fun page _ => h.mapping page)⟩
    rw [Request.page, Vmm.mapping, hnone]
    rfl
  · rw [heq]
    refine ⟨tree_invlpg (tree_storeLeaf h.tree hpt) va, ?_, PageMap.eq_after ?_ ?_⟩
    · have hclean := h.clean.storeLeaf h.tree hpt 0#64
      intro q t j ht hq hpresent
      rw [node_invlpg] at ht
      rw [invlpg_pmm] at hpresent ⊢
      exact hclean q t j ht hq hpresent
    · rw [Request.page, Vmm.mapping, translate_invlpg,
        translate_storeLeaf_zero h.tree hpt]
      rfl
    · intro page hpage
      rw [Vmm.mapping, translate_invlpg, translate_storeLeaf h.tree hpt hpage]
      exact h.mapping page

/-- One request on the tables is one step of the map. -/
theorem Maps.step {s s' : Vmm} {f : PageMap} {r : Request} (h : s.Maps f)
    (hstep : s.Step r s') (hspares : s.Spares r) : s'.Maps (f.after r) := by
  obtain ⟨hallowed, rfl⟩ := hstep
  cases r with
  | mmap va pa flags => exact h.mmap flags hallowed.1 (supplied_of_fresh hallowed.2 hspares)
  | unmap va => exact h.unmap va

end Vmm

/-- After any run of requests on such a tree that keeps the bitmap out of the tables, each
page translates as the last request on it says, and as at the start when there was none. -/
theorem page_tables_refine_map (s t : Vmm) (rs : List Vmm.Request) (htree : s.Tree)
    (hclean : s.Clean) (hrun : Run (fun u r u' => u.Step r u' ∧ u.Spares r) s rs t)
    (page : Page) : t.mapping page = s.mapping.last rs page := by
  have hkeep : ∀ (s : Vmm) (r : Vmm.Request) (s' : Vmm) (f : PageMap), s.Maps f →
      s.Step r s' ∧ s.Spares r → s'.Maps (f.after r) :=
    fun _ _ _ _ h hstep => h.step hstep.1 hstep.2
  have hmaps : t.Maps (rs.foldl PageMap.after s.mapping) :=
    hrun.simulates Vmm.Maps hkeep ⟨htree, hclean, fun _ => rfl⟩
  rw [hmaps.mapping page, PageMap.foldl_after]

namespace Sample

/-- Table `g`, empty, under entry `i` of table `t`. -/
def addTable (m : Memory) (t : Frame) (i : Index) (g : Frame) : Memory :=
  (m.fill (tablePtr g) 4096 0#8).store64 (entryPtr t i) (Entry.linking g)

/-- One table at each level, in the frames 1 to 4. -/
def tables : Memory :=
  addTable (addTable (addTable (fun _ => 0#8) 1 0 2) 2 0 3) 3 2 4

/-- Eight frames from frame 8 on, with the bitmap in frame 256. -/
def file : PmmFile :=
  (pmmInit (fun _ => 0#8) (tablePtr 8) 0x8000#64 (tablePtr 256) 16#64).file

/-- A CPU that uses the tables under frame 1. -/
def cpuOn (m : Memory) : Vmm :=
  { pmm := { mem := m, file := file }
    pml4 := tablePtr 1
    cr3 := 0x1000#64
    taken := []
    tlb := []
    upcoming := fun _ => [] }

/-- The page at `0x400000` is mapped. -/
def vmm : Vmm := (cpuOn tables).storeLeaf 4 0x400 (leafEntry 0x20000#64 3#64)

theorem rd_addTable (m : Memory) (t : Frame) (i : Index) (g : Frame) :
    rd (addTable m t i g) = Radix.link (rd m) t i g (Entry.linking g) 0#64 := by
  rw [addTable, rd_store64, rd_fill]
  rfl

theorem rd_zero (f : Frame) (i : Index) : rd (fun _ => 0#8) f i = 0#64 :=
  Memory.load64_of_zero (fun _ _ => rfl)

theorem node_zero (q : List Index) (f : Frame)
    (h : Radix.node Entry.next (rd (fun _ => 0#8)) 0 1 q = some f) :
    (q, f) ∈ [(([] : List Index), (1 : Frame))] := by
  cases q with
  | nil =>
      obtain rfl := Option.some.inj h
      exact List.mem_singleton_self _
  | cons i q => simp [Radix.node, rd_zero, Entry.next_zero] at h

theorem links1 : Radix.Links Entry.next (rd (fun _ => 0#8)) 1 [] 1 0 2
    (Entry.linking 2) 0#64 where
  unshared := Radix.Unshared.of_node_inj (fun p q f hp hq => by
    have hp := node_zero p f hp
    have hq := node_zero q f hq
    simp_all)
  parent := rfl
  fresh := fun q hq => absurd (node_zero q 2 hq) (by simp)
  absent := by rw [rd_zero, Entry.next_zero]
  leads := Entry.next_linking (by decide) 2
  empty := Entry.next_zero

theorem rd_tables : rd tables =
    Radix.link (Radix.link (Radix.link (rd (fun _ => 0#8)) 1 0 2 (Entry.linking 2) 0#64)
      2 0 3 (Entry.linking 3) 0#64) 3 2 4 (Entry.linking 4) 0#64 := by
  rw [tables, rd_addTable, rd_addTable, rd_addTable]

/-- The entries of the tables, to be looked up. -/
theorem rd_tables_zero : rd tables =
    Radix.link (Radix.link (Radix.link (fun _ _ => 0#64) 1 0 2 (Entry.linking 2) 0#64)
      2 0 3 (Entry.linking 3) 0#64) 3 2 4 (Entry.linking 4) 0#64 := by
  have hzero : rd (fun _ => 0#8) = fun _ _ => 0#64 := by
    funext f i
    exact rd_zero f i
  rw [rd_tables, hzero]

theorem links2 : Radix.Links Entry.next
    (Radix.link (rd (fun _ => 0#8)) 1 0 2 (Entry.linking 2) 0#64) 1 [0] 2 0 3
    (Entry.linking 3) 0#64 :=
  links1.under node_zero 0 (by decide) (Entry.next_linking (by decide) 3)

theorem links3 : Radix.Links Entry.next
    (Radix.link (Radix.link (rd (fun _ => 0#8)) 1 0 2 (Entry.linking 2) 0#64) 2 0 3
      (Entry.linking 3) 0#64) 1 [0, 0] 3 2 4 (Entry.linking 4) 0#64 :=
  links2.under (links1.node_mem_cons node_zero) 2 (by decide)
    (Entry.next_linking (by decide) 4)

theorem unshared_tables : Radix.Unshared Entry.next (rd tables) 1 := by
  rw [rd_tables]
  exact links3.link_unshared

theorem node_tables (q : List Index) (f : Frame)
    (h : Radix.node Entry.next (rd tables) 0 1 q = some f) :
    (q, f) ∈ [([0, 0, 2], (4 : Frame)), ([0, 0], 3), ([0], 2), ([], 1)] := by
  rw [rd_tables] at h
  exact links3.node_mem_cons (links2.node_mem_cons (links1.node_mem_cons node_zero)) q f h

theorem node_upper_tables :
    Radix.node Entry.next (rd tables) 0 1 (upper 0x400) = some 4 := by
  rw [rd_tables]
  exact (links3.node_link _ 4).mpr (Or.inr ⟨by decide, rfl⟩)

theorem tree_cpuOn : (cpuOn tables).Tree where
  pml4 := by decide
  unshared := unshared_tables

theorem tree_vmm : vmm.Tree := Vmm.tree_storeLeaf tree_cpuOn node_upper_tables

theorem rd_tables_cases (t : Frame) (j : Index) :
    rd tables t j = 0#64 ∨ ∃ f, rd tables t j = Entry.linking f := by
  rw [rd_tables]
  simp only [Radix.link, Radix.setEntry, Radix.blank, rd_zero]
  split_ifs <;> simp

theorem clean_cpuOn : (cpuOn tables).Clean := by
  intro q t j _ _ hpresent
  change Entry.present (rd tables t j) at hpresent
  change Entry.Plain q.length (rd tables t j)
  rcases rd_tables_cases t j with hzero | ⟨f, hlink⟩
  · rw [hzero] at hpresent
    exact absurd hpresent (by decide)
  · rw [hlink]
    exact Entry.linking_plain _ f

theorem clean_vmm : vmm.Clean := clean_cpuOn.storeLeaf tree_cpuOn node_upper_tables _

theorem frame_of_node {q : List Index} {f : Frame}
    (h : Radix.node Entry.next (rd tables) 0 1 q = some f) : f.toNat ≤ 4 := by
  have hmem := node_tables q f h
  simp only [List.mem_cons, Prod.mk.injEq, List.not_mem_nil, or_false] at hmem
  rcases hmem with ⟨_, rfl⟩ | ⟨_, rfl⟩ | ⟨_, rfl⟩ | ⟨_, rfl⟩ <;> decide

/-- The bitmap is one byte. -/
theorem eq_of_records {s : Vmm} {x : Ptr} (hx : s.Records x)
    (hfile : s.pmm.file = file) : x = tablePtr 256 := by
  obtain ⟨j, hj, rfl⟩ := hx
  rw [Pmm.bitCount, hfile] at hj
  have hj8 : j < 8 := hj
  rw [Bitmap.slot, Nat.div_eq_of_lt hj8, hfile]
  decide

/-- With all tables in the first frames `palloc` may answer with frame 8. -/
theorem grants_of_tables {s : Vmm} (hfile : s.pmm.file = file)
    (hptr : (palloc s.pmm).1 = tablePtr 8) (htables : ∀ f, s.IsTable f → f.toNat ≤ 4) :
    s.Grants 8 where
  pointer := hptr
  success := by
    rw [hptr]
    decide
  fresh := fun h => absurd (htables 8 h) (by decide)
  records := by
    intro g hg x hx hrecords
    have hne : g ≠ 256 := fun heq => absurd (htables 256 (heq ▸ hg)) (by decide)
    refine tables_apart hne hx ?_
    rw [eq_of_records hrecords hfile]
    decide

theorem grants_vmm : vmm.Grants 8 :=
  grants_of_tables rfl (by decide +kernel) (fun _ ⟨q, hq⟩ =>
    frame_of_node ((Vmm.node_storeLeaf tree_cpuOn node_upper_tables q).symm.trans hq))

theorem entries_vmm : vmm.entries 0x400 =
    [Entry.linking 2, Entry.linking 3, Entry.linking 4, leafEntry 0x20000#64 3#64] := by
  have hpath : upper 0x400 = [0, 0, 2] := by decide
  have h1 : rd tables 1 0 = Entry.linking 2 := by
    rw [rd_tables_zero]
    decide
  have h2 : rd tables 2 0 = Entry.linking 3 := by
    rw [rd_tables_zero]
    decide
  have h3 : rd tables 3 2 = Entry.linking 4 := by
    rw [rd_tables_zero]
    decide
  rw [vmm, Vmm.entries_storeLeaf tree_cpuOn node_upper_tables, hpath]
  change Radix.walk Entry.next (rd tables) 0 1 [0, 0, 2] ++ _ = _
  simp only [Radix.walk, h1, h2, h3, Entry.next_linking (show 0 < 3 by decide),
    Entry.next_linking (show 0 + 1 < 3 by decide), List.cons_append]
  rfl

/-- An address of which only the last table is missing, in a tree like that of `tables`. -/
structure Lacking (s : Vmm) (va : Ptr) (i : Index) (g : Frame) : Prop where
  pml4 : s.pml4 = tablePtr 1
  first : (pageOf va).extractLsb' 27 9 = 0
  second : (pageOf va).extractLsb' 18 9 = 0
  third : (pageOf va).extractLsb' 9 9 = i
  pdpt : rd s.pmm.mem 1 0 = Entry.linking 2
  pd : rd s.pmm.mem 2 0 = Entry.linking 3
  absent : rd s.pmm.mem 3 i &&& pagePresent = 0#64
  given : s.palloc.1 = tablePtr g

namespace Lacking

variable {s : Vmm} {va : Ptr} {i : Index} {g : Frame} (h : Lacking s va i g)
include h

theorem nextTables :
    nextTable s (tablePtr 1) ((0 : Index).setWidth 64) = (tablePtr 2, s) ∧
      nextTable s (tablePtr 2) ((0 : Index).setWidth 64) = (tablePtr 3, s) ∧
      nextTable s (tablePtr 3) (i.setWidth 64) = (tablePtr g, s.linked 3 i g) := by
  refine ⟨Vmm.nextTable_present ?_ ?_, Vmm.nextTable_present ?_ ?_,
    Vmm.nextTable_absent h.absent h.given⟩
  · rw [Vmm.load_eq_rd, h.pdpt]
    decide
  · rw [Vmm.load_eq_rd, h.pdpt]
    decide
  · rw [Vmm.load_eq_rd, h.pd]
    decide
  · rw [Vmm.load_eq_rd, h.pd]
    decide

theorem mmap_eq (pa flags : BitVec 64) :
    mmap s va pa flags = (s.linked 3 i g).rewriteLeaf g (pageOf va) (leafEntry pa flags) := by
  obtain ⟨h1, h2, h3⟩ := h.nextTables
  have hmmap := mmap_levels s va pa flags
  simp only [h.pml4, h.first, h.second, h.third, h1, h2, h3] at hmmap
  exact hmmap

/-- `palloc` is called once. -/
theorem eachPalloc {P : Vmm → Prop} (hp : P s) : s.EachPalloc P va := by
  obtain ⟨h1, h2, _⟩ := h.nextTables
  obtain ⟨h39, h30, h21, _⟩ := indices_eq va
  unfold Vmm.EachPalloc
  simp only [h39, h30, h21, h.first, h.second, h.third, h.pml4, h1, h2]
  exact ⟨fun _ => hp, fun _ => hp, fun _ => hp⟩

end Lacking

theorem rd_vmm {f : Frame} (hf : f ≠ 4) (i : Index) : rd vmm.pmm.mem f i = rd tables f i := by
  rw [vmm, Vmm.rd_storeLeaf, Radix.setEntry, if_neg (fun h => hf h.1)]
  rfl

theorem lacking_vmm : Lacking vmm 0x200000#64 1 8 where
  pml4 := rfl
  first := by decide
  second := by decide
  third := by decide
  pdpt := by
    rw [rd_vmm (by decide), rd_tables_zero]
    decide
  pd := by
    rw [rd_vmm (by decide), rd_tables_zero]
    decide
  absent := by
    rw [rd_vmm (by decide), rd_tables_zero]
    decide
  given := grants_vmm.pointer

theorem supplied_vmm : vmm.Supplied 0x200000#64 :=
  Vmm.supplied_of_fresh
    (lacking_vmm.eachPalloc ⟨8, grants_vmm.pointer, grants_vmm.success, grants_vmm.fresh⟩)
    (lacking_vmm.eachPalloc grants_vmm.records)

end Sample

theorem page_tables_refine_map_sample :
    ((Sample.vmm.exec (.mmap 0x200000#64 0x30000#64 3#64)).exec
        (.unmap 0x400000#64)).mapping 0x400 =
      Sample.vmm.mapping.last
        [.mmap 0x200000#64 0x30000#64 3#64, .unmap 0x400000#64] 0x400 := by
  let s := Sample.vmm.exec (.mmap 0x200000#64 0x30000#64 3#64)
  have hgrants := Sample.grants_vmm
  have hmmap : Sample.vmm.Step (.mmap 0x200000#64 0x30000#64 3#64) s :=
    ⟨⟨by decide, Sample.lacking_vmm.eachPalloc
      ⟨8, hgrants.pointer, hgrants.success, hgrants.fresh⟩⟩, Eq.refl _⟩
  have hunmap : s.Step (.unmap 0x400000#64) (s.exec (.unmap 0x400000#64)) :=
    ⟨trivial, Eq.refl _⟩
  exact page_tables_refine_map _ _ _ Sample.tree_vmm Sample.clean_vmm
    (Run.cons ⟨hmmap, Sample.lacking_vmm.eachPalloc hgrants.records⟩
      (Run.cons ⟨hunmap, trivial⟩ (Run.nil _))) 0x400

namespace Sample

/-! Two frames at frame 256, both in use, with the one byte of the bitmap in the frame
behind them, which it counts as the third. -/

def crowdedPmm : Pmm where
  mem := tables.poke (tablePtr 0x102) 3#8
  file := (pmmInit (fun _ => 0#8) (tablePtr 0x100) 0x2000#64 (tablePtr 0x102) 0x1000#64).file

def crowded : Vmm := { cpuOn tables with pmm := crowdedPmm }

theorem rd_crowded {f : Frame} (hf : f ≠ 0x102) (i : Index) :
    rd crowdedPmm.mem f i = rd tables f i := by
  have hbyte : ∀ x, x ≠ tablePtr 0x102 → crowdedPmm.mem x = tables x :=
    fun x hx => Memory.poke_ne tables 3#8 hx
  refine rd_congr (fun x hx => hbyte x ?_) i
  rintro rfl
  exact tables_apart hf hx (by decide)

theorem node_crowded (q : List Index) : crowded.node q = (cpuOn tables).node q :=
  Radix.node_congr (fun _ _ i ht _ => rd_crowded
    (fun heq => absurd (frame_of_node (heq ▸ ht)) (by decide)) i)

theorem table_crowded {f : Frame} (h : crowded.IsTable f) : f.toNat ≤ 4 := by
  obtain ⟨q, hq⟩ := h
  exact frame_of_node ((node_crowded q).symm.trans hq)

theorem tree_crowded : crowded.Tree where
  pml4 := by decide
  unshared := unshared_tables.of_node_eq node_crowded

theorem clean_crowded : crowded.Clean := by
  intro q t j ht hq hpresent
  have hne : t ≠ 0x102 := fun heq => absurd (table_crowded ⟨q, heq ▸ ht⟩) (by decide)
  change Entry.present (rd crowdedPmm.mem t j) at hpresent
  change Entry.Plain q.length (rd crowdedPmm.mem t j)
  rw [rd_crowded hne] at hpresent ⊢
  exact clean_cpuOn q t j ((node_crowded q).symm.trans ht) hq hpresent

/-- The bitmap's own frame is given. -/
theorem palloc_crowded : crowdedPmm.firstFree = some 2 ∧ crowdedPmm.frame 2 = tablePtr 0x102 := by
  decide +kernel

theorem ptr_crowded : (palloc crowded.pmm).1 = tablePtr 0x102 :=
  (congrArg Prod.fst (palloc_of_firstFree palloc_crowded.1)).trans palloc_crowded.2

theorem grants_crowded : crowded.Grants 0x102 where
  pointer := ptr_crowded
  success := by
    rw [ptr_crowded]
    decide
  fresh := fun h => absurd (table_crowded h) (by decide)
  records := by
    rintro g hg x hx ⟨j, hj, rfl⟩
    have hne : g ≠ 0x102 := fun heq => absurd (table_crowded (heq ▸ hg)) (by decide)
    have hj8 : j < 8 := hj
    refine tables_apart hne hx ?_
    rw [Bitmap.slot, Nat.div_eq_of_lt hj8]
    decide

theorem lacking_crowded : Lacking crowded 0x200000#64 1 0x102 where
  pml4 := rfl
  first := by decide
  second := by decide
  third := by decide
  pdpt := by
    rw [show crowded.pmm.mem = crowdedPmm.mem from rfl, rd_crowded (by decide), rd_tables_zero]
    decide
  pd := by
    rw [show crowded.pmm.mem = crowdedPmm.mem from rfl, rd_crowded (by decide), rd_tables_zero]
    decide
  absent := by
    rw [show crowded.pmm.mem = crowdedPmm.mem from rfl, rd_crowded (by decide), rd_tables_zero]
    decide
  given := ptr_crowded

/-- The page at `0x200000` is mapped, in a table that holds the bitmap. -/
def overlaid : Vmm := crowded.exec (.mmap 0x200000#64 0x5000#64 7#64)

theorem overlaid_eq : overlaid =
    (crowded.linked 3 1 0x102).rewriteLeaf 0x102 0x200 (leafEntry 0x5000#64 7#64) :=
  lacking_crowded.mmap_eq _ _

/-- Its allocator. -/
def overlaidPmm : Pmm :=
  (Vmm.linkedPmm crowdedPmm 2 3 1 0x102).withMem
    (((Vmm.linkedPmm crowdedPmm 2 3 1 0x102).mem.store64 (entryPtr 0x102 0) 0#64).store64
      (entryPtr 0x102 0) (leafEntry 0x5000#64 7#64))

theorem pmm_overlaid : overlaid.pmm = overlaidPmm := by
  have hpmm : crowded.pmm = crowdedPmm := rfl
  have hfree : crowded.pmm.firstFree = some 2 := by
    rw [hpmm]
    exact palloc_crowded.1
  have hlinked := Vmm.pmm_linked hfree 3 1 0x102
  rw [hpmm] at hlinked
  have hlast : lastIndex 0x200 = 0 := by decide
  have hfile : overlaid.pmm.file = (Vmm.linkedPmm crowdedPmm 2 3 1 0x102).file := by
    rw [overlaid_eq, Vmm.rewriteLeaf, Vmm.storeLeaf_file, Vmm.storeLeaf_file, hlinked]
  have hmem : overlaid.pmm.mem =
      ((Vmm.linkedPmm crowdedPmm 2 3 1 0x102).mem.store64 (entryPtr 0x102 0) 0#64).store64
        (entryPtr 0x102 0) (leafEntry 0x5000#64 7#64) := by
    rw [overlaid_eq, Vmm.rewriteLeaf, Vmm.storeLeaf_mem, Vmm.storeLeaf_mem, hlinked, hlast]
  rw [overlaidPmm, Pmm.eq_withMem hmem hfile]

theorem node_pd_tables : Radix.node Entry.next (rd tables) 0 1 [0, 0] = some 3 := by
  rw [rd_tables]
  exact (links3.node_link _ 3).mpr (Or.inl ((links2.node_link _ 3).mpr (Or.inr ⟨rfl, rfl⟩)))

theorem table_overlaid {f : Frame} (h : overlaid.IsTable f) : f.toNat ≤ 4 ∨ f = 0x102 := by
  have hparent : crowded.node [0, 0] = some 3 := (node_crowded _).trans node_pd_tables
  have habsent : ¬ Entry.present (rd crowded.pmm.mem 3 1) := by
    rw [Entry.present_iff, lacking_crowded.absent]
    exact fun hne => hne rfl
  have hnode := Vmm.node_linked tree_crowded grants_crowded hparent (by decide) habsent
  have htree := Vmm.tree_linked tree_crowded grants_crowded hparent (by decide) habsent
  have hpt : (crowded.linked 3 1 0x102).node (upper 0x200) = some 0x102 :=
    (hnode _ _).mpr (Or.inr ⟨by decide, rfl⟩)
  obtain ⟨q, hq⟩ := h
  rw [overlaid_eq, Vmm.rewriteLeaf,
    Vmm.node_storeLeaf (Vmm.tree_storeLeaf htree hpt) ((Vmm.node_storeLeaf htree hpt _).trans hpt),
    Vmm.node_storeLeaf htree hpt] at hq
  rcases (hnode q f).mp hq with hold | ⟨_, rfl⟩
  · exact Or.inl (table_crowded ⟨q, hold⟩)
  · exact Or.inr rfl

/-- What the allocator does next, and what the tables hold before and after. -/
theorem overlaid_facts : overlaidPmm.firstFree = some 3 ∧
    overlaidPmm.frame 3 = tablePtr 0x103 ∧ rd overlaidPmm.mem 1 0 = Entry.linking 2 ∧
    rd overlaidPmm.mem 2 0 = Entry.linking 3 ∧
    rd overlaidPmm.mem 3 3 &&& pagePresent = 0#64 ∧
    translate (overlaidPmm.mark 3).mem 1 0x200 =
      some { frame := 5, flags := 15#12, writable := true, user := false, executable := true } := by
  decide +kernel

theorem palloc_overlaid : palloc overlaid.pmm = (tablePtr 0x103, overlaidPmm.mark 3) := by
  rw [pmm_overlaid, palloc_of_firstFree overlaid_facts.1, overlaid_facts.2.1]

theorem lacking_overlaid : Lacking overlaid 0x600000#64 3 0x103 where
  pml4 := by rw [overlaid_eq, Vmm.rewriteLeaf, Vmm.storeLeaf_pml4, Vmm.storeLeaf_pml4,
    Vmm.linked_pml4, lacking_crowded.pml4]
  first := by decide
  second := by decide
  third := by decide
  pdpt := by
    rw [pmm_overlaid]
    exact overlaid_facts.2.2.1
  pd := by
    rw [pmm_overlaid]
    exact overlaid_facts.2.2.2.1
  absent := by
    rw [pmm_overlaid]
    exact overlaid_facts.2.2.2.2.1
  given := congrArg Prod.fst palloc_overlaid

/-- The tables after a second request, for which a bit is set in the first entry. -/
theorem rd_later : rd (overlaid.exec (.mmap 0x600000#64 0x6000#64 7#64)).pmm.mem =
    Radix.setEntry (Radix.link (rd (overlaidPmm.mark 3).mem) 3 3 0x103 (Entry.linking 0x103)
      0#64) 0x103 (lastIndex 0x600) (leafEntry 0x6000#64 7#64) := by
  have hafter : overlaid.palloc.2.pmm = overlaidPmm.mark 3 :=
    congrArg Prod.snd palloc_overlaid
  have hmmap := lacking_overlaid.mmap_eq 0x6000#64 7#64
  have hpage : pageOf 0x600000#64 = 0x600 := by decide
  rw [Vmm.exec, hmmap, Vmm.rd_rewriteLeaf, Vmm.rd_linked, hafter, hpage]

theorem root_later : (overlaid.exec (.mmap 0x600000#64 0x6000#64 7#64)).root = 1 := by
  rw [Vmm.exec, lacking_overlaid.mmap_eq, Vmm.rewriteLeaf_root, Vmm.linked_root, overlaid_eq,
    Vmm.rewriteLeaf_root, Vmm.linked_root]
  decide

theorem mapping_later :
    (overlaid.exec (.mmap 0x600000#64 0x6000#64 7#64)).mapping 0x200 =
      some (0x5000#64, 0xF#64) := by
  rw [Vmm.mapping, Vmm.translate, translate, Asnu.entries, rd_later, root_later]
  decide +kernel

end Sample

open Sample in
/-- The bitmap's frame becomes a table, and the bit that a later `palloc` sets there is one of
the flags of its first page. -/
theorem mapped_page_gains_flag :
    ¬ ∀ (s t : Vmm) (rs : List Vmm.Request), s.Tree → s.Clean → Run Vmm.Step s rs t →
      ∀ page, t.mapping page = s.mapping.last rs page := by
  intro hclaim
  have hgrants := grants_crowded
  have hfresh : overlaid.Fresh := by
    refine ⟨0x103, congrArg Prod.fst palloc_overlaid, ?_, fun h => ?_⟩
    · rw [palloc_overlaid]
      decide
    · exact (table_overlaid h).elim (fun hle => absurd hle (by decide))
        (fun heq => absurd heq (by decide))
  have hfirst : crowded.Step (.mmap 0x200000#64 0x5000#64 7#64) overlaid :=
    ⟨⟨by decide, lacking_crowded.eachPalloc
      ⟨0x102, hgrants.pointer, hgrants.success, hgrants.fresh⟩⟩, rfl⟩
  have hsecond : overlaid.Step (.mmap 0x600000#64 0x6000#64 7#64)
      (overlaid.exec (.mmap 0x600000#64 0x6000#64 7#64)) :=
    ⟨⟨by decide, lacking_overlaid.eachPalloc hfresh⟩, rfl⟩
  have hmapping := hclaim _ _ _ tree_crowded clean_crowded
    (Run.cons hfirst (Run.cons hsecond (Run.nil _))) 0x200
  rw [mapping_later] at hmapping
  have hlast : PageMap.last crowded.mapping [.mmap 0x200000#64 0x5000#64 7#64,
      .mmap 0x600000#64 0x6000#64 7#64] 0x200 = some (0x5000#64, 7#64) := rfl
  rw [hlast] at hmapping
  exact absurd hmapping (by decide)

end Asnu
