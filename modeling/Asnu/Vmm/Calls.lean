import Asnu.Vmm.Tables

/-!
The calls `mmap` and `unmap` as wholes. On a page whose path is plain both end
in a store into the entry of that page in a last table, and do nothing else to
any translation.
-/

namespace Asnu

open Lib

/-- The indices that lead to the last table of a page. -/
def upper (page : Page) : List Index :=
  [page.extractLsb' 27 9, page.extractLsb' 18 9, page.extractLsb' 9 9]

/-- The index of a page in its last table. -/
def lastIndex (page : Page) : Index := page.extractLsb' 0 9

theorem path_eq (page : Page) : path page = upper page ++ [lastIndex page] := rfl

/-- The four indices that `mmap` and `unmap` compute. -/
theorem indices_eq (va : Ptr) :
    (va >>> 39) &&& 0x1FF#64 = ((pageOf va).extractLsb' 27 9).setWidth 64 ∧
      (va >>> 30) &&& 0x1FF#64 = ((pageOf va).extractLsb' 18 9).setWidth 64 ∧
      (va >>> 21) &&& 0x1FF#64 = ((pageOf va).extractLsb' 9 9).setWidth 64 ∧
      (va >>> 12) &&& 0x1FF#64 = (lastIndex (pageOf va)).setWidth 64 :=
  ⟨index_eq va (by decide), index_eq va (by decide), index_eq va (by decide),
    index_eq va (by decide)⟩

/-- `mmap` level by level, with the indices of the page. -/
theorem mmap_levels (s : Vmm) (va pa : Ptr) (flags : BitVec 64) :
    mmap s va pa flags =
      let pdpt := nextTable s s.pml4 (((pageOf va).extractLsb' 27 9).setWidth 64)
      let pd := nextTable pdpt.2 pdpt.1 (((pageOf va).extractLsb' 18 9).setWidth 64)
      let pt := nextTable pd.2 pd.1 (((pageOf va).extractLsb' 9 9).setWidth 64)
      (pt.2.store pt.1 ((lastIndex (pageOf va)).setWidth 64) 0#64).store pt.1
        ((lastIndex (pageOf va)).setWidth 64) (leafEntry pa flags) := by
  obtain ⟨h39, h30, h21, h12⟩ := indices_eq va
  rw [← h39, ← h30, ← h21, ← h12]
  rfl

theorem snoc_prefix_path {a b : Page} (h : upper a ++ [lastIndex a] <+: path b) :
    a = b := by
  rw [← path_eq] at h
  exact path_inj (h.eq_of_length rfl)

namespace Vmm

section Path

variable {s : Vmm} {page : Page} {p r : List Index} {i : Index} {t : Frame}

theorem entries_getElem? (hpath : path page = p ++ i :: r) (ht : s.node p = some t) :
    (s.entries page)[p.length]? = some (rd s.pmm.mem t i) := by
  rw [entries, Asnu.entries, hpath]
  exact Radix.walk_getElem? _ _ 0 _ p r i ht

theorem PlainPath.plain (h : s.PlainPath page) (hpath : path page = p ++ i :: r)
    (ht : s.node p = some t) (hd : p.length < 3)
    (hpresent : Entry.present (rd s.pmm.mem t i)) :
    Entry.Plain p.length (rd s.pmm.mem t i) :=
  h p.length hd _ (entries_getElem? hpath ht) hpresent

/-- Linking tables makes no path less plain. -/
theorem PlainPath.plain_of_extends {fresh : List Ptr} {s' : Vmm}
    (h : s.PlainPath page) (hext : Extends fresh s s')
    (hpath : path page = p ++ i :: r) (ht : s'.node p = some t) (hd : p.length < 3)
    (hpresent : Entry.present (rd s'.pmm.mem t i)) :
    Entry.Plain p.length (rd s'.pmm.mem t i) := by
  rcases hext.entry p t i ht with ⟨hold, heq⟩ | hzero | ⟨f, hlink⟩
  · rw [heq] at hpresent ⊢
    exact h.plain hpath hold hd hpresent
  · rw [hzero] at hpresent
    exact absurd hpresent (by decide)
  · rw [hlink]
    exact Entry.linking_plain _ f

theorem present_of_translate (htr : s.translate page ≠ none)
    (hpath : path page = p ++ i :: r) (ht : s.node p = some t) :
    Entry.present (rd s.pmm.mem t i) := by
  by_contra habsent
  exact htr (ofEntries_absent hpath ht habsent)

/-- The entries on the way to a table are present. -/
theorem present_of_node {q : List Index} {u : Frame} (hu : s.node (p ++ i :: q) = some u)
    (ht : s.node p = some t) : Entry.present (rd s.pmm.mem t i) := by
  by_contra habsent
  rw [node, Radix.node_append, show Radix.node Entry.next _ 0 s.root p = some t from ht] at hu
  simp [Radix.node, Entry.next_of_not_present habsent] at hu

/-- Along a plain path a translated page has a table at every level. -/
theorem node_step (hplain : s.PlainPath page) (htr : s.translate page ≠ none)
    (hpath : path page = p ++ i :: r) (ht : s.node p = some t) (hd : p.length < 3) :
    ∃ u, s.node (p ++ [i]) = some u := by
  have hpresent := present_of_translate htr hpath ht
  exact ⟨_, node_of_plain ht hd hpresent (hplain.plain hpath ht hd hpresent)⟩

theorem node_upper (hplain : s.PlainPath page) (htr : s.translate page ≠ none) :
    ∃ pt, s.node (upper page) = some pt := by
  obtain ⟨a, ha⟩ := node_step (p := []) hplain htr rfl rfl (by simp)
  obtain ⟨b, hb⟩ := node_step hplain htr rfl ha (by simp)
  exact node_step hplain htr rfl hb (by simp)

end Path

section Leaf

variable {s : Vmm} {page : Page} {pt : Frame} {e : Entry}

/-- A store into the entry of `page` in its last table. -/
def storeLeaf (s : Vmm) (pt : Frame) (page : Page) (e : Entry) : Vmm :=
  s.store (tablePtr pt) ((lastIndex page).setWidth 64) e

theorem storeLeaf_mem (s : Vmm) (pt : Frame) (page : Page) (e : Entry) :
    (s.storeLeaf pt page e).pmm.mem =
      s.pmm.mem.store64 (entryPtr pt (lastIndex page)) e := withMem_mem _ _

theorem rd_storeLeaf (s : Vmm) (pt : Frame) (page : Page) (e : Entry) :
    rd (s.storeLeaf pt page e).pmm.mem =
      Radix.setEntry (rd s.pmm.mem) pt (lastIndex page) e := by
  rw [storeLeaf_mem, rd_store64]

theorem storeLeaf_root (s : Vmm) (pt : Frame) (page : Page) (e : Entry) :
    (s.storeLeaf pt page e).root = s.root := withMem_root _ _

theorem storeLeaf_pml4 (s : Vmm) (pt : Frame) (page : Page) (e : Entry) :
    (s.storeLeaf pt page e).pml4 = s.pml4 := withMem_pml4 _ _

theorem storeLeaf_taken (s : Vmm) (pt : Frame) (page : Page) (e : Entry) :
    (s.storeLeaf pt page e).taken = s.taken := withMem_taken _ _

theorem storeLeaf_file (s : Vmm) (pt : Frame) (page : Page) (e : Entry) :
    (s.storeLeaf pt page e).pmm.file = s.pmm.file := withMem_file _ _

theorem storeLeaf_tlb (s : Vmm) (pt : Frame) (page : Page) (e : Entry) :
    (s.storeLeaf pt page e).tlb = s.accesses.tlb := withMem_tlb _ _

theorem node_storeLeaf (hs : s.Tree) (hpt : s.node (upper page) = some pt)
    (q : List Index) : (s.storeLeaf pt page e).node q = s.node q := by
  have hlast : ∀ e, Entry.next (upper page).length e = none := Entry.next_last
  rw [node, rd_storeLeaf, storeLeaf_root]
  exact Radix.node_setEntry_of_next_eq hs.unshared hpt
    ((hlast e).trans (hlast _).symm) (hlast e) q

theorem tree_storeLeaf (hs : s.Tree) (hpt : s.node (upper page) = some pt) :
    (s.storeLeaf pt page e).Tree where
  pml4 := by rw [storeLeaf_pml4, storeLeaf_root, hs.pml4]
  unshared := by
    rw [storeLeaf_root]
    exact hs.unshared.of_node_eq (fun q => by
      have hnode := node_storeLeaf (e := e) hs hpt q
      rwa [node, storeLeaf_root] at hnode)

theorem entries_storeLeaf (hs : s.Tree) (hpt : s.node (upper page) = some pt) :
    (s.storeLeaf pt page e).entries page =
      Radix.walk Entry.next (rd s.pmm.mem) 0 s.root (upper page) ++ [e] := by
  rw [entries, Asnu.entries, rd_storeLeaf, storeLeaf_root, path_eq,
    Radix.walk_setEntry_through hs.unshared e hpt,
    show Entry.next (upper page).length e = none from Entry.next_last e]

/-- Other pages do not see the store. -/
theorem translate_storeLeaf (hs : s.Tree) (hpt : s.node (upper page) = some pt)
    {other : Page} (hne : other ≠ page) :
    (s.storeLeaf pt page e).translate other = s.translate other := by
  rw [translate, translate, Asnu.translate, Asnu.translate, Asnu.entries, Asnu.entries,
    rd_storeLeaf, storeLeaf_root]
  exact congrArg _ (Radix.walk_setEntry hs.unshared e hpt
    (fun hq => hne (snoc_prefix_path hq).symm))

theorem translate_storeLeaf_zero (hs : s.Tree) (hpt : s.node (upper page) = some pt) :
    (s.storeLeaf pt page 0#64).translate page = none := by
  change Translation.ofEntries page ((s.storeLeaf pt page 0#64).entries page) = none
  rw [entries_storeLeaf hs hpt]
  exact ofEntries_not_present page _ (by decide)

/-- The two stores at the end of `mmap`. -/
def rewriteLeaf (s : Vmm) (pt : Frame) (page : Page) (e : Entry) : Vmm :=
  (s.storeLeaf pt page 0#64).storeLeaf pt page e

theorem tree_rewriteLeaf (hs : s.Tree) (hpt : s.node (upper page) = some pt) :
    (s.rewriteLeaf pt page e).Tree :=
  tree_storeLeaf (tree_storeLeaf hs hpt) ((node_storeLeaf hs hpt _).trans hpt)

theorem rd_rewriteLeaf (s : Vmm) (pt : Frame) (page : Page) (e : Entry) :
    rd (s.rewriteLeaf pt page e).pmm.mem =
      Radix.setEntry (rd s.pmm.mem) pt (lastIndex page) e := by
  rw [rewriteLeaf, rd_storeLeaf, rd_storeLeaf]
  funext f j
  by_cases h : f = pt ∧ j = lastIndex page <;> simp [Radix.setEntry, h]

theorem rewriteLeaf_root (s : Vmm) (pt : Frame) (page : Page) (e : Entry) :
    (s.rewriteLeaf pt page e).root = s.root := by
  rw [rewriteLeaf, storeLeaf_root, storeLeaf_root]

theorem translate_rewriteLeaf (hs : s.Tree) (hpt : s.node (upper page) = some pt) :
    (s.rewriteLeaf pt page e).translate page = Translation.ofEntries page
      (Radix.walk Entry.next (rd s.pmm.mem) 0 s.root (upper page) ++ [e]) := by
  rw [translate, Asnu.translate, Asnu.entries, rd_rewriteLeaf, rewriteLeaf_root, path_eq,
    Radix.walk_setEntry_through hs.unshared e hpt,
    show Entry.next (upper page).length e = none from Entry.next_last e]

theorem translate_rewriteLeaf_other (hs : s.Tree) (hpt : s.node (upper page) = some pt)
    {other : Page} (hne : other ≠ page) :
    (s.rewriteLeaf pt page e).translate other = s.translate other :=
  (translate_storeLeaf (tree_storeLeaf hs hpt) ((node_storeLeaf hs hpt _).trans hpt)
    hne).trans (translate_storeLeaf hs hpt hne)

theorem rewriteLeaf_taken (s : Vmm) (pt : Frame) (page : Page) (e : Entry) :
    (s.rewriteLeaf pt page e).taken = s.taken := by
  rw [rewriteLeaf, storeLeaf_taken, storeLeaf_taken]

/-- Between the two stores the page has no translation to cache. -/
theorem tlb_rewriteLeaf (hs : s.Tree) (hpt : s.node (upper page) = some pt)
    {x : Page × Translation} (hx : x ∈ (s.rewriteLeaf pt page e).tlb) :
    x ∈ s.tlb ∨ s.translate x.1 = some x.2 := by
  rw [rewriteLeaf, storeLeaf_tlb] at hx
  rcases mem_accesses hx with hmem | htr
  · rw [storeLeaf_tlb] at hmem
    exact mem_accesses hmem
  · by_cases hpage : x.1 = page
    · rw [hpage, translate_storeLeaf_zero hs hpt] at htr
      exact absurd htr (by simp)
    · rw [translate_storeLeaf hs hpt hpage] at htr
      exact Or.inr htr

theorem mem_tlb_rewriteLeaf {x : Page × Translation} (hx : x ∈ s.tlb) :
    x ∈ (s.rewriteLeaf pt page e).tlb := by
  rw [rewriteLeaf, storeLeaf_tlb]
  refine List.mem_append_right _ ?_
  rw [storeLeaf_tlb]
  exact List.mem_append_right _ hx

/-- A store into an entry stays inside the table. -/
theorem storeLeaf_out (s : Vmm) (page : Page) (e : Entry) {x : Ptr}
    (hx : ¬ InRange (tablePtr pt) 4096 x) :
    (s.storeLeaf pt page e).pmm.mem x = s.pmm.mem x := by
  rw [storeLeaf_mem]
  exact Memory.store64_out _ _ (fun h => hx (inRange_table h))

theorem node_invlpg (s : Vmm) (va : Ptr) (q : List Index) :
    (s.invlpg va).node q = s.node q := by
  rw [node, node, invlpg_pmm, invlpg_root]

theorem tree_invlpg (hs : s.Tree) (va : Ptr) : (s.invlpg va).Tree where
  pml4 := by rw [invlpg_pml4, invlpg_root, hs.pml4]
  unshared := by
    rw [invlpg_pmm, invlpg_root]
    exact hs.unshared

end Leaf

inductive Request where
  | mmap (va pa : Ptr) (flags : BitVec 64)
  | unmap (va : Ptr)

/-- The page a request names. -/
def Request.page : Request → Page
  | .mmap va _ _ => pageOf va
  | .unmap va => pageOf va

def exec (s : Vmm) : Request → Vmm
  | .mmap va pa flags => Asnu.mmap s va pa flags
  | .unmap va => Asnu.unmap s va

/-- `P` holds at each `palloc` that `mmap` makes for this address. -/
def EachPalloc (P : Vmm → Prop) (s : Vmm) (va : Ptr) : Prop :=
  let pml4Index := (va >>> 39) &&& 0x1FF#64
  let pdptIndex := (va >>> 30) &&& 0x1FF#64
  let pdIndex := (va >>> 21) &&& 0x1FF#64
  let pdpt := nextTable s s.pml4 pml4Index
  let pd := nextTable pdpt.2 pdpt.1 pdptIndex
  (s.load s.pml4 pml4Index &&& pagePresent = 0#64 → P s) ∧
    (pdpt.2.load pdpt.1 pdptIndex &&& pagePresent = 0#64 → P pdpt.2) ∧
    (pd.2.load pd.1 pdIndex &&& pagePresent = 0#64 → P pd.2)

theorem EachPalloc.and {P Q R : Vmm → Prop} {s : Vmm} {va : Ptr} (hp : s.EachPalloc P va)
    (hq : s.EachPalloc Q va) (himp : ∀ u, P u → Q u → R u) : s.EachPalloc R va :=
  ⟨fun h => himp _ (hp.1 h) (hq.1 h), fun h => himp _ (hp.2.1 h) (hq.2.1 h),
    fun h => himp _ (hp.2.2 h) (hq.2.2 h)⟩

/-- Every `palloc` that `mmap` makes for this address is answered. -/
def Supplied (s : Vmm) (va : Ptr) : Prop :=
  let pml4Index := (va >>> 39) &&& 0x1FF#64
  let pdptIndex := (va >>> 30) &&& 0x1FF#64
  let pdIndex := (va >>> 21) &&& 0x1FF#64
  let pdpt := nextTable s s.pml4 pml4Index
  let pd := nextTable pdpt.2 pdpt.1 pdptIndex
  s.Serves s.pml4 pml4Index ∧ pdpt.2.Serves pdpt.1 pdptIndex ∧
    pd.2.Serves pd.1 pdIndex

/-- `palloc` answers whenever the request calls it. -/
def Answered (s : Vmm) : Request → Prop
  | .mmap va _ _ => s.Supplied va
  | .unmap _ => True

/-- `mmap` links what tables are missing, and then stores twice into the entry
of the page in its last table. -/
theorem mmap_spec {s : Vmm} (hs : s.Tree) {va : Ptr} (hplain : s.PlainPath (pageOf va))
    (hsupplied : s.Supplied va) (pa : Ptr) (flags : BitVec 64) :
    ∃ fresh m pt, Extends fresh s m ∧ m.node (upper (pageOf va)) = some pt ∧
      mmap s va pa flags = m.rewriteLeaf pt (pageOf va) (leafEntry pa flags) := by
  obtain ⟨h39, h30, h21, _⟩ := indices_eq va
  have hmmap := mmap_levels s va pa flags
  unfold Supplied at hsupplied
  simp only [h39, h30, h21, hs.pml4] at hmmap hsupplied
  obtain ⟨hserves1, hserves2, hserves3⟩ := hsupplied
  obtain ⟨t1, fresh1, hptr1, hext1, hnode1⟩ := nextTable_spec hs (p := []) rfl (by decide)
    (hplain.plain rfl rfl (by decide)) hserves1
  rw [hptr1] at hmmap hserves2 hserves3
  obtain ⟨t2, fresh2, hptr2, hext2, hnode2⟩ := nextTable_spec hext1.tree hnode1 (by simp)
    (hplain.plain_of_extends hext1 rfl hnode1 (by simp)) hserves2
  rw [hptr2] at hmmap hserves3
  obtain ⟨t3, fresh3, hptr3, hext3, hnode3⟩ := nextTable_spec hext2.tree hnode2 (by simp)
    (hplain.plain_of_extends (hext1.trans hext2) rfl hnode2 (by simp)) hserves3
  rw [hptr3] at hmmap
  exact ⟨_, _, t3, (hext1.trans hext2).trans hext3, hnode3, hmmap⟩

/-- Tables that are there need not be made. -/
theorem supplied_of_translate {s : Vmm} (hs : s.Tree) {va : Ptr}
    (hplain : s.PlainPath (pageOf va)) (htr : s.translate (pageOf va) ≠ none) :
    s.Supplied va := by
  have hlevel : ∀ {p r : List Index} {i : Index} {t : Frame},
      path (pageOf va) = p ++ i :: r → s.node p = some t → p.length < 3 →
      s.load (tablePtr t) (i.setWidth 64) &&& pagePresent ≠ 0#64 ∧
        ∃ u, s.node (p ++ [i]) = some u ∧
          nextTable s (tablePtr t) (i.setWidth 64) = (tablePtr u, s) := by
    intro p r i t hpath ht hd
    have hpresent := present_of_translate htr hpath ht
    have hentry := hplain.plain hpath ht hd hpresent
    have hne := (Entry.present_iff _).mp hpresent
    exact ⟨hne, _, node_of_plain ht hd hpresent hentry,
      nextTable_present hne (Entry.pointer_eq hentry.2)⟩
  obtain ⟨h39, h30, h21, _⟩ := indices_eq va
  obtain ⟨hne1, t1, ht1, hnext1⟩ := hlevel (p := []) rfl rfl (by decide)
  obtain ⟨hne2, t2, ht2, hnext2⟩ := hlevel rfl ht1 (by simp)
  obtain ⟨hne3, _⟩ := hlevel rfl ht2 (by simp)
  simp only [Supplied, h39, h30, h21, hs.pml4, hnext1, hnext2]
  exact ⟨fun h => absurd h hne1, fun h => absurd h hne2, fun h => absurd h hne3⟩

/-- A level of `unmap`: the entry is not present, and the page has no
translation, or the code goes on to the table the hardware goes to. -/
theorem unmap_step {s : Vmm} {page : Page} {p r : List Index} {i : Index} {t : Frame}
    (hpath : path page = p ++ i :: r) (ht : s.node p = some t) (hd : p.length < 3)
    (hplain : Entry.present (rd s.pmm.mem t i) →
      Entry.Plain p.length (rd s.pmm.mem t i)) :
    (s.load (tablePtr t) (i.setWidth 64) &&& pagePresent = 0#64 ∧
        s.translate page = none) ∨
      ∃ u, s.node (p ++ [i]) = some u ∧
        s.load (tablePtr t) (i.setWidth 64) &&& pagePresent ≠ 0#64 ∧
        pa2vaU64 (s.load (tablePtr t) (i.setWidth 64) &&& ~~~0xFFF#64) = tablePtr u := by
  rw [load_eq_rd]
  by_cases hpresent : Entry.present (rd s.pmm.mem t i)
  · exact Or.inr ⟨_, node_of_plain ht hd hpresent (hplain hpresent),
      (Entry.present_iff _).mp hpresent, Entry.pointer_eq (hplain hpresent).2⟩
  · refine Or.inl ⟨?_, ?_⟩
    · by_contra hne
      exact hpresent ((Entry.present_iff _).mpr hne)
    · by_contra htr
      exact hpresent (present_of_translate htr hpath ht)

/-- `unmap` returns at a missing table, when the page has no translation, or
clears the entry of the page in its last table and drops what is cached. -/
theorem unmap_spec {s : Vmm} (hs : s.Tree) {va : Ptr} (hplain : s.PlainPath (pageOf va)) :
    (unmap s va = s ∧ s.translate (pageOf va) = none) ∨
      ∃ pt, s.node (upper (pageOf va)) = some pt ∧
        unmap s va = (s.storeLeaf pt (pageOf va) 0#64).invlpg va := by
  obtain ⟨h39, h30, h21, h12⟩ := indices_eq va
  simp only [unmap, h39, h30, h21, h12, hs.pml4]
  rcases unmap_step (p := []) rfl rfl (by decide)
      (hplain.plain rfl rfl (by decide)) with ⟨hzero, htr⟩ | ⟨a, ha, hne, hptr⟩
  · exact Or.inl ⟨if_pos hzero, htr⟩
  rw [if_neg hne, hptr]
  rcases unmap_step rfl ha (by simp) (hplain.plain rfl ha (by simp)) with
    ⟨hzero, htr⟩ | ⟨b, hb, hne, hptr⟩
  · exact Or.inl ⟨if_pos hzero, htr⟩
  rw [if_neg hne, hptr]
  rcases unmap_step rfl hb (by simp) (hplain.plain rfl hb (by simp)) with
    ⟨hzero, htr⟩ | ⟨pt, hpt, hne, hptr⟩
  · exact Or.inl ⟨if_pos hzero, htr⟩
  rw [if_neg hne, hptr]
  exact Or.inr ⟨pt, hpt, rfl⟩

end Vmm

end Asnu
