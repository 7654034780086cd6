import Asnu.Pmm.Count
import Asnu.Vmm.Owners

/-!
What the page tables cost. A table is made for every prefix of the indices of an address
that is mapped for the first time, and none is ever given back, so the addresses mapped so
far tell which tables there are and how many frames they hold.
-/

namespace Asnu

open Lib

/-- The paths of the tables that mapping these pages takes, the empty one leading to the
PML4. -/
def tablePaths (pages : List Page) : Finset (List Index) :=
  ([] :: pages.flatMap (fun page => (upper page).inits)).toFinset

theorem mem_tablePaths {pages : List Page} {q : List Index} :
    q ∈ tablePaths pages ↔ q = [] ∨ ∃ page ∈ pages, q <+: upper page := by
  rw [tablePaths, List.mem_toFinset, List.mem_cons, List.mem_flatMap]
  simp only [List.mem_inits]

/-- A further page has three tables. -/
theorem tablePaths_append (pages : List Page) (page : Page) :
    tablePaths (pages ++ [page]) =
      insert [page.extractLsb' 27 9, page.extractLsb' 18 9, page.extractLsb' 9 9]
        (insert [page.extractLsb' 27 9, page.extractLsb' 18 9]
          (insert [page.extractLsb' 27 9] (tablePaths pages))) := by
  have hpaths : ∀ q, q <+: upper page ↔ q = [] ∨ q = [page.extractLsb' 27 9] ∨
      q = [page.extractLsb' 27 9, page.extractLsb' 18 9] ∨
      q = [page.extractLsb' 27 9, page.extractLsb' 18 9, page.extractLsb' 9 9] := by
    intro q
    rw [← List.mem_inits]
    simp [upper]
  ext q
  simp only [Finset.mem_insert, mem_tablePaths, List.mem_append, List.mem_singleton]
  constructor
  · rintro (hnil | ⟨other, hother | rfl, hq⟩)
    · exact Or.inr (Or.inr (Or.inr (Or.inl hnil)))
    · exact Or.inr (Or.inr (Or.inr (Or.inr ⟨other, hother, hq⟩)))
    · rcases (hpaths q).mp hq with hnil | hone | htwo | hthree
      · exact Or.inr (Or.inr (Or.inr (Or.inl hnil)))
      · exact Or.inr (Or.inr (Or.inl hone))
      · exact Or.inr (Or.inl htwo)
      · exact Or.inl hthree
  · rintro (hthree | htwo | hone | hnil | ⟨other, hother, hq⟩)
    · exact Or.inr ⟨page, Or.inr rfl, (hpaths q).mpr (Or.inr (Or.inr (Or.inr hthree)))⟩
    · exact Or.inr ⟨page, Or.inr rfl, (hpaths q).mpr (Or.inr (Or.inr (Or.inl htwo)))⟩
    · exact Or.inr ⟨page, Or.inr rfl, (hpaths q).mpr (Or.inr (Or.inl hone))⟩
    · exact Or.inl hnil
    · exact Or.inr ⟨other, Or.inl hother, hq⟩

/-- Every frame with a bit is one that the direct map shows. -/
def Pmm.Direct (s : Pmm) : Prop := ∀ i < s.bitCount, ∃ f, s.frame i = tablePtr f

theorem Pmm.Direct.of_file_eq {s t : Pmm} (h : s.Direct) (hfile : t.file = s.file) :
    t.Direct := by
  intro i hi
  rw [Ledger.bitCount_of_file_eq hfile] at hi
  rw [Pmm.frame_of_file_eq hfile]
  exact h i hi

namespace Vmm

/-- What the tables and the clients hold together. -/
def accounts (s : Vmm) (live : List Block) : Ledger := { pmm := s.pmm, live := s.blocks ++ live }

/-- `P` holds the paths of the tables, and every frame that is not free is that of one table
or of one client. -/
structure Booked (slots : Finset Index) (live : List Block) (P : Finset (List Index)) (s : Vmm) :
    Prop where
  owned : Owned slots live s
  exact : (s.accounts live).Exact
  whole : s.pmm.Whole
  direct : s.pmm.Direct
  nodes : Radix.Nodes Entry.next (s.view slots) s.root P
  count : s.taken.length = P.card

namespace Booked

variable {slots : Finset Index} {live : List Block} {P : Finset (List Index)} {s : Vmm}

/-- The frames are free, or held by the clients, or tables. -/
theorem frames (h : Booked slots live P s) :
    s.pmm.freeFrames + live.length + P.card = s.pmm.bitCount := by
  have hcount : s.pmm.freeFrames + (s.blocks ++ live).length = s.pmm.bitCount :=
    h.exact.count h.whole
  have hblocks : s.blocks.length = P.card := by rw [blocks, List.length_map, h.count]
  rw [List.length_append, hblocks] at hcount
  omega

theorem palloc_eq_null_iff (h : Booked slots live P s) :
    (Asnu.palloc s.pmm).1 = NULL ↔ live.length + P.card = s.pmm.bitCount := by
  have hframes := h.frames
  have hnull : (Asnu.palloc s.pmm).1 = NULL ↔ s.pmm.freeFrames = 0 :=
    h.exact.palloc_eq_null_iff h.whole
  rw [hnull]
  omega

/-- Where the direct map shows every frame, one that `palloc` answers with may become a
table. -/
theorem takes_of_laid (hlaid : s.pmm.Laid) (hdirect : s.pmm.Direct) (hnull : s.palloc.1 ≠ NULL) :
    s.Takes := by
  have hpalloc : s.palloc.1 = (Asnu.palloc s.pmm).1 := rfl
  rw [palloc_eq] at hpalloc
  cases hfree : s.pmm.firstFree with
  | none =>
      rw [hfree] at hpalloc
      exact absurd hpalloc hnull
  | some k =>
      rw [hfree] at hpalloc
      have hk := (Pmm.firstFree_eq_some.mp hfree).1
      obtain ⟨f, hf⟩ := hdirect k hk
      have hmiss := hlaid.apart k hk
      have hptr : s.palloc.1 = tablePtr f := hpalloc.trans hf
      refine ⟨f, hptr, hnull, ?_⟩
      rw [← hf]
      exact hmiss

theorem takes (h : Booked slots live P s) (hnull : s.palloc.1 ≠ NULL) : s.Takes :=
  takes_of_laid h.exact.laid h.direct hnull

/-- What `palloc` answers with is accounted for as one frame more. -/
theorem exact_palloc (h : (s.accounts live).Exact) (hnull : s.palloc.1 ≠ NULL) :
    (s.palloc.2.accounts live).Exact := by
  have hpalloc : Asnu.palloc s.pmm = (s.palloc.1, s.palloc.2.pmm) := rfl
  have hblocks : s.palloc.2.blocks = ⟨s.palloc.1, 4096⟩ :: s.blocks := by
    rw [blocks, palloc_taken, List.map_cons, blocks]
  rw [palloc_eq] at hpalloc
  cases hfree : s.pmm.firstFree with
  | none =>
      rw [hfree] at hpalloc
      exact absurd (Prod.mk.inj hpalloc).1.symm hnull
  | some k =>
      rw [hfree] at hpalloc
      obtain ⟨hptr, hpmm⟩ := Prod.mk.inj hpalloc
      have hgrant := h.grant 4096 (show (s.accounts live).pmm.firstFree = some k from hfree)
      have hframe : (s.accounts live).pmm.frame k = s.palloc.1 := hptr
      rw [Ledger.grant, if_neg (by rwa [hframe]), hframe] at hgrant
      rw [accounts, hblocks, ← hpmm]
      exact hgrant

/-- Stores that miss the bitmap change no account. -/
theorem exact_of_bytes {s' : Vmm} (h : (s.accounts live).Exact)
    (hfile : s'.pmm.file = s.pmm.file) (htaken : s'.taken = s.taken)
    (hbytes : ∀ k < s.pmm.file.bitmapLength.toNat,
      s'.pmm.mem (s.pmm.file.bitmapBase + BitVec.ofNat 64 k) =
        s.pmm.mem (s.pmm.file.bitmapBase + BitVec.ofNat 64 k)) :
    (s'.accounts live).Exact := by
  have hblocks : s'.blocks = s.blocks := by rw [blocks, blocks, htaken]
  refine h.of_bits hfile (fun j hj => Pmm.bit_of_bytes_eq hfile hbytes hj) ?_
  rw [accounts, hblocks]
  exact List.Perm.refl _

/-- A change that leaves the tables where they are. -/
theorem of_same_nodes {s' : Vmm} {live' : List Block} (h : Booked slots live P s)
    (howned : Owned slots live' s') (hexact : (s'.accounts live').Exact)
    (hfile : s'.pmm.file = s.pmm.file) (htaken : s'.taken = s.taken)
    (hnode : ∀ q, s'.viewNode slots q = s.viewNode slots q) (hroot : s'.root = s.root) :
    Booked slots live' P s' where
  owned := howned
  exact := hexact
  whole := h.whole.of_file_eq hfile
  direct := h.direct.of_file_eq hfile
  nodes := by
    rw [hroot]
    refine h.nodes.congr (fun q => ?_)
    have hq := hnode q
    rwa [viewNode, viewNode, hroot] at hq
  count := by rw [htaken, h.count]

/-- `vmm_init` takes the frame of the PML4. -/
theorem vmmInit {boot : Vmm} (htaken : boot.taken = []) (hstart : (Ledger.start boot.pmm).Exact)
    (hwhole : boot.pmm.Whole) (hdirect : boot.pmm.Direct) (hnull : boot.palloc.1 ≠ NULL)
    (hempty : ∀ i ∈ slots,
      ¬ Entry.present (rd (Asnu.vmmInit boot).pmm.mem (Asnu.vmmInit boot).root i)) :
    Booked slots [] (tablePaths []) (Asnu.vmmInit boot) := by
  have htakes := takes_of_laid hstart.laid hdirect hnull
  have howned := owned_vmmInit hstart.held.sized htaken htakes hempty
  have hfile := vmmInit_file boot
  refine ⟨howned, ?_, hwhole.of_file_eq hfile, hdirect.of_file_eq hfile, ?_, ?_⟩
  · have hbefore : (boot.accounts []).Exact := by
      rw [accounts, blocks, htaken]
      exact hstart
    have hmade : (Asnu.vmmInit boot).taken = boot.palloc.2.taken := by
      rw [vmmInit_taken, palloc_taken]
    have hsame : (Asnu.vmmInit boot).pmm.file = boot.palloc.2.pmm.file :=
      hfile.trans (palloc_file boot).symm
    obtain ⟨g, hptr, _, hmiss⟩ := htakes
    refine exact_of_bytes (exact_palloc hbefore hnull) hsame hmade (fun k hk => ?_)
    refine vmmInit_bytes boot ?_
    rw [palloc_file] at hk ⊢
    rw [hptr]
    exact hmiss k hk
  · intro q
    rw [mem_tablePaths]
    constructor
    · rintro (rfl | ⟨page, hpage, _⟩)
      · exact ⟨_, rfl⟩
      · cases hpage
    · rintro ⟨f, hf⟩
      exact Or.inl (viewNode_of_absent (absent_of_empty hempty) hf).1
  · rw [vmmInit_taken, htaken]
    rfl

section Level

variable {p : List Index} {t g : Frame} {i : Index}

/-- A new table adds its path and one frame. -/
theorem linked (h : Booked slots live P s) (ht : s.viewNode slots p = some t) (hd : p.length < 3)
    (hslot : t = s.root → i ∈ slots) (habsent : ¬ Entry.present (s.view slots t i))
    (hptr : s.palloc.1 = tablePtr g) (hnull : s.palloc.1 ≠ NULL)
    (hmiss : s.pmm.MissesBitmap (tablePtr g)) (howned : Owned slots live (s.linked t i g)) :
    Booked slots live (insert (p ++ [i]) P) (s.linked t i g) := by
  obtain ⟨hpalloc, hnode, hview, hfresh⟩ := h.owned.palloc hptr hnull hmiss
  have hlinks : Radix.Links Entry.next (s.palloc.2.view slots) s.root p t i g
      (Entry.linking g) 0#64 :=
    { unshared := hpalloc.unshared
      parent := (hnode p).trans ht
      fresh := fun q hq => hfresh q ((hnode q).symm.trans hq)
      absent := by
        rw [hview p t i ht]
        exact Entry.next_of_not_present habsent
      leads := Entry.next_linking hd g
      empty := Entry.next_zero }
  have hseen : (s.linked t i g).view slots =
      Radix.link (s.palloc.2.view slots) t i g (Entry.linking g) 0#64 :=
    Owned.view_link (linked_root s t i g) hslot (fun heq => hfresh [] (congrArg some heq.symm))
      (linked_mem s t i g)
  have hbefore : Radix.Nodes Entry.next (s.palloc.2.view slots) s.root P :=
    h.nodes.congr hnode
  have hfile : (s.linked t i g).pmm.file = s.palloc.2.pmm.file :=
    (linked_file s t i g).trans (palloc_file s).symm
  have htable : s.palloc.2.pmm.MissesBitmap (tablePtr t) :=
    hpalloc.misses _ (hpalloc.node_taken ((hnode p).trans ht))
  have hnew : s.palloc.2.pmm.MissesBitmap (tablePtr g) := hmiss.of_file_eq (palloc_file s)
  refine ⟨howned, ?_, h.whole.of_file_eq (linked_file s t i g),
    h.direct.of_file_eq (linked_file s t i g), ?_, ?_⟩
  · refine exact_of_bytes (exact_palloc h.exact hnull) hfile (linked_taken s t i g)
      (fun k hk => ?_)
    rw [linked_mem, Memory.store64_out _ _ (fun hin => htable k hk (inRange_table hin)),
      Memory.fill_out _ _ (hnew k hk)]
  · rw [hseen, linked_root]
    exact hbefore.link hlinks
  · rw [linked_taken, List.length_cons, h.count, hbefore.card_link hlinks]

/-- A level of `mmap` takes a frame if its path has no table yet. -/
theorem nextTable (h : Booked slots live P s) (ht : s.viewNode slots p = some t)
    (hd : p.length < 3) (hslot : t = s.root → i ∈ slots)
    (hserved : s.load (tablePtr t) (i.setWidth 64) &&& pagePresent = 0#64 →
      s.palloc.1 ≠ NULL) :
    ∃ g, (Asnu.nextTable s (tablePtr t) (i.setWidth 64)).1 = tablePtr g ∧
      Booked slots live (insert (p ++ [i]) P)
        (Asnu.nextTable s (tablePtr t) (i.setWidth 64)).2 ∧
      (Asnu.nextTable s (tablePtr t) (i.setWidth 64)).2.viewNode slots (p ++ [i]) = some g := by
  obtain ⟨g, hg, howned, hnew, _⟩ := h.owned.nextTable ht hd hslot
    (fun hzero => h.takes (hserved hzero))
  refine ⟨g, hg, ?_, hnew⟩
  by_cases hzero : s.load (tablePtr t) (i.setWidth 64) &&& pagePresent = 0#64
  · obtain ⟨f, hptr, hnull, hmiss⟩ := h.takes (hserved hzero)
    have habsent : ¬ Entry.present (s.view slots t i) := by
      rw [Owned.view_eq hslot, Entry.present_iff, ← load_eq_rd]
      exact fun hne => hne hzero
    rw [nextTable_absent hzero hptr] at howned ⊢
    exact h.linked ht hd hslot habsent hptr hnull hmiss howned
  · obtain ⟨f, hf, hptr⟩ := h.owned.follows ht hd hslot hzero
    have hpath : p ++ [i] ∈ P := h.nodes.mem hf
    rw [nextTable_present hzero hptr, Finset.insert_eq_of_mem hpath]
    exact h

end Level

/-- A store into a last table. -/
theorem storeLeaf (h : Booked slots live P s) {page : Page} {pt : Frame}
    (hpt : s.viewNode slots (upper page) = some pt) (e : Entry) :
    Booked slots live P (s.storeLeaf pt page e) ∧
      (s.storeLeaf pt page e).viewNode slots (upper page) = some pt := by
  obtain ⟨howned, hnode, _⟩ := h.owned.storeLeaf hpt e
  have hmiss := h.owned.misses _ (h.owned.node_taken hpt)
  have hfile : (s.storeLeaf pt page e).pmm.file = s.pmm.file := withMem_file _ _
  have hexact : ((s.storeLeaf pt page e).accounts live).Exact := by
    refine exact_of_bytes h.exact hfile (storeLeaf_taken s pt page e) (fun k hk => ?_)
    rw [storeLeaf_mem]
    exact Memory.store64_out _ _ (fun hin => hmiss k hk (inRange_table hin))
  exact ⟨h.of_same_nodes howned hexact hfile (storeLeaf_taken s pt page e) hnode
    (storeLeaf_root s pt page e), (hnode _).trans hpt⟩

theorem invlpg {va : Ptr} (h : Booked slots live P s) (howned : Owned slots live (s.invlpg va)) :
    Booked slots live P (s.invlpg va) :=
  h.of_same_nodes howned h.exact (congrArg Pmm.file (invlpg_pmm s va)) (invlpg_taken s va)
    (fun _ => rfl) (invlpg_root s va)

/-- `mmap` makes the tables of the page that are missing. -/
theorem mmap {pages : List Page} (h : Booked slots live (tablePaths pages) s) {va : Ptr}
    (hslot : slot va ∈ slots) (hserved : s.EachPalloc (fun u => u.palloc.1 ≠ NULL) va)
    (pa : Ptr) (flags : BitVec 64) :
    Booked slots live (tablePaths (pages ++ [pageOf va])) (Asnu.mmap s va pa flags) := by
  obtain ⟨h39, h30, h21, _⟩ := indices_eq va
  have hmmap := mmap_levels s va pa flags
  unfold EachPalloc at hserved
  simp only [h39, h30, h21, h.owned.pml4] at hmmap hserved
  obtain ⟨hserved1, hserved2, hserved3⟩ := hserved
  obtain ⟨t1, hptr1, hbooked1, hnode1⟩ := h.nextTable (p := [])
    (i := (pageOf va).extractLsb' 27 9) rfl (by decide) (fun _ => hslot) hserved1
  rw [hptr1] at hmmap hserved2 hserved3
  obtain ⟨t2, hptr2, hbooked2, hnode2⟩ := hbooked1.nextTable hnode1 (by simp)
    (fun heq => absurd heq (hbooked1.owned.ne_root hnode1 (by simp))) hserved2
  rw [hptr2] at hmmap hserved3
  obtain ⟨t3, hptr3, hbooked3, hnode3⟩ := hbooked2.nextTable hnode2 (by simp)
    (fun heq => absurd heq (hbooked2.owned.ne_root hnode2 (by simp))) hserved3
  rw [hptr3] at hmmap
  obtain ⟨hcleared, hleaf⟩ := @Booked.storeLeaf _ _ _ _ hbooked3 (pageOf va) t3 hnode3 0#64
  rw [hmmap, tablePaths_append]
  exact (hcleared.storeLeaf hleaf (leafEntry pa flags)).1

end Booked

/-- `unmap` returns at a table that is missing, or clears the entry of the page. -/
theorem Owned.unmap_cases {slots : Finset Index} {live : List Block} {s : Vmm}
    (h : Owned slots live s) {va : Ptr} (hslot : slot va ∈ slots) :
    Asnu.unmap s va = s ∨ ∃ pt, s.viewNode slots (Asnu.upper (pageOf va)) = some pt ∧
      Asnu.unmap s va = (s.storeLeaf pt (pageOf va) 0#64).invlpg va := by
  obtain ⟨h39, h30, h21, h12⟩ := indices_eq va
  simp only [Asnu.unmap, h39, h30, h21, h12, h.pml4]
  split
  · exact Or.inl rfl
  · next hne1 =>
      obtain ⟨t1, hnode1, hptr1⟩ := h.follows (p := [])
        (i := (pageOf va).extractLsb' 27 9) rfl (by decide) (fun _ => hslot) hne1
      have hroot1 : t1 ≠ s.root := h.ne_root hnode1 (by simp)
      rw [hptr1]
      split
      · exact Or.inl rfl
      · next hne2 =>
          obtain ⟨t2, hnode2, hptr2⟩ := h.follows hnode1 (by simp)
            (fun heq => absurd heq hroot1) hne2
          have hroot2 : t2 ≠ s.root := h.ne_root hnode2 (by simp)
          rw [hptr2]
          split
          · exact Or.inl rfl
          · next hne3 =>
              obtain ⟨t3, hnode3, hptr3⟩ := h.follows hnode2 (by simp)
                (fun heq => absurd heq hroot2) hne3
              rw [hptr3]
              exact Or.inr ⟨t3, hnode3, rfl⟩

/-- `unmap` gives back no table. -/
theorem Booked.unmap {slots : Finset Index} {live : List Block} {P : Finset (List Index)}
    {s : Vmm} (h : Booked slots live P s) {va : Ptr} (hslot : slot va ∈ slots) :
    Booked slots live P (Asnu.unmap s va) := by
  have howned := (h.owned.unmap hslot).1
  rcases h.owned.unmap_cases hslot with hsame | ⟨pt, hpt, hclears⟩
  · rw [hsame]
    exact h
  · obtain ⟨hcleared, _⟩ := h.storeLeaf hpt 0#64
    rw [hclears] at howned ⊢
    exact hcleared.invlpg howned

namespace Booked

variable {slots : Finset Index} {P : Finset (List Index)}

/-- A call of a client that leaves the tables alone. -/
theorem client {live live' : List Block} {s : Vmm} (h : Booked slots live P s) {pmm : Pmm}
    (hfile : pmm.file = s.pmm.file)
    (hbytes : ∀ f, tablePtr f ∈ s.taken → ∀ x, InRange (tablePtr f) 4096 x →
      pmm.mem x = s.pmm.mem x)
    (hexact : Ledger.Exact { pmm := pmm, live := s.blocks ++ live' }) :
    Booked slots live' P { s with pmm := pmm } := by
  have hroot : ({ s with pmm := pmm } : Vmm).root = s.root := rfl
  have htaken : ({ s with pmm := pmm } : Vmm).taken = [] ++ s.taken := rfl
  obtain ⟨howned, hnode, _⟩ := h.owned.congr hroot rfl hfile htaken (by simp)
    (fun f hf i => rd_congr (hbytes f hf) i) hexact.held
  exact h.of_same_nodes howned hexact hfile rfl hnode hroot

variable {s : MemSystem}

theorem alloc (h : Booked slots s.live P s.vmm) {c : Call} (hc : ∀ ptr, c ≠ .kfree ptr) :
    Booked slots (s.exec (.call c)).live P (s.exec (.call c)).vmm := by
  rcases s.ledger.exec_alloc hc with hsame | ⟨i, size, hfree, hexec⟩
  · have heq : s.exec (.call c) = s := by
      rw [MemSystem.exec, hsame]
      rfl
    rw [heq]
    exact h
  · obtain ⟨hi, _, _⟩ := Pmm.firstFree_eq_some.mp hfree
    have hexact := h.exact.grant size hfree
    simp only [MemSystem.exec, hexec]
    refine h.client rfl (fun f hf x hx => ?_) ?_
    · exact Bitmap.set_out _ (fun heq =>
        Owned.not_records s.vmm (h.owned.misses _ hf) hx ⟨i, hi, heq⟩)
    · exact hexact.of_bits rfl (fun _ _ => rfl) (Ledger.grant_perm rfl _ size)

/-- A client gives back a frame of its own, which is no table's. -/
theorem kfree (h : Booked slots s.live P s.vmm) {ptr : Ptr} (hlive : ∃ b ∈ s.live, b.ptr = ptr) :
    Booked slots (s.exec (.call (.kfree ptr))).live P (s.exec (.call (.kfree ptr))).vmm := by
  obtain ⟨b, hb, rfl⟩ := hlive
  have hall : b ∈ s.vmm.blocks ++ s.live := List.mem_append_right _ hb
  have hexact := h.exact.kfree ⟨b, hall, rfl⟩
  have hcount := h.owned.held.sized.bitCount_le
  obtain ⟨_, _, hcross⟩ := List.pairwise_append.mp h.owned.held.distinct
  have hkeeps : (s.vmm.blocks ++ s.live).eraseP (fun c => c.ptr = b.ptr) =
      s.vmm.blocks ++ s.live.eraseP (fun c => c.ptr = b.ptr) :=
    List.eraseP_append_right _ (fun c hc => by simpa using hcross c hc b hb)
  rw [Ledger.exec, accounts, hkeeps] at hexact
  refine h.client (kfree_file _ _) (fun f hf x hx => ?_) hexact
  obtain ⟨i, hi, hptr, _⟩ := h.owned.held.owned b hall
  obtain ⟨k, hk, hframe, _⟩ := h.owned.held.owned _ (List.mem_append_left _ (Owned.mem_blocks hf))
  have hki : k ≠ i := by
    rintro rfl
    exact hcross _ (Owned.mem_blocks hf) b hb (hframe.trans hptr.symm)
  have hout : ¬ InRange b.ptr 4096 x := by
    rw [hptr]
    refine Pmm.frame_inRange_apart _ (by omega) (by omega) hki ?_
    rw [← hframe]
    exact hx
  exact kfree_out _ hout (fun j hj heq =>
    Owned.not_records s.vmm (h.owned.misses _ hf) hx ⟨j, hj, heq⟩)

end Booked

end Vmm

/-- The page that the event maps. -/
def MemEvent.mapped : MemEvent → Option Page
  | .mmap va _ _ => some (pageOf va)
  | .unmap _ | .call _ => none

namespace MemSystem

variable {slots : Finset Index} {s t : MemSystem}

theorem exec_file (s : MemSystem) (e : MemEvent) :
    (s.exec e).vmm.pmm.file = s.vmm.pmm.file := by
  cases e with
  | mmap va pa flags => exact Vmm.mmap_file s.vmm va pa flags
  | unmap va => exact Vmm.unmap_file s.vmm va
  | call c => exact s.ledger.exec_file c

theorem run_file {es : List MemEvent} (hrun : Run (Step slots) s es t) :
    t.vmm.pmm.file = s.vmm.pmm.file := by
  refine hrun.invariant (fun u => u.vmm.pmm.file = s.vmm.pmm.file) ?_ rfl
  rintro u e u' hu ⟨_, rfl⟩
  exact (u.exec_file e).trans hu

/-- An `mmap` adds the tables of its page, and nothing else changes which there are. -/
theorem booked_step {pages : List Page} {e : MemEvent}
    (h : Vmm.Booked slots s.live (tablePaths pages) s.vmm) (hstep : s.Step slots e t) :
    Vmm.Booked slots t.live (tablePaths (pages ++ e.mapped.toList)) t.vmm := by
  obtain ⟨hallowed, rfl⟩ := hstep
  cases e with
  | mmap va pa flags => exact h.mmap hallowed.1 hallowed.2 pa flags
  | unmap va =>
      rw [MemEvent.mapped, Option.toList_none, List.append_nil]
      exact h.unmap hallowed
  | call c =>
      rw [MemEvent.mapped, Option.toList_none, List.append_nil]
      cases c with
      | kalloc size => exact h.alloc (by simp)
      | palloc => exact h.alloc (by simp)
      | kfree ptr => exact h.kfree hallowed

theorem booked_run {pages : List Page} {es : List MemEvent}
    (h : Vmm.Booked slots s.live (tablePaths pages) s.vmm) (hrun : Run (Step slots) s es t) :
    Vmm.Booked slots t.live (tablePaths (pages ++ es.filterMap MemEvent.mapped)) t.vmm := by
  induction hrun generalizing pages with
  | nil s =>
      rw [List.filterMap_nil, List.append_nil]
      exact h
  | @cons s u t e es hstep _ ih =>
      have hrest := ih (booked_step h hstep)
      have hlist : (e :: es).filterMap MemEvent.mapped =
          e.mapped.toList ++ es.filterMap MemEvent.mapped := by
        rw [List.filterMap_cons]
        cases e.mapped with
        | none => rfl
        | some page => rfl
      rw [hlist, ← List.append_assoc]
      exact hrest

end MemSystem

end Asnu
