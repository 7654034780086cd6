import Asnu.Pmm.Blocks
import Asnu.Vmm.Calls

/-!
Who owns the frames of the page tables. Seen from some slots of the PML4 the
tables are a tree that `mmap` alone has built, each in a frame of its own that
the allocator counts as taken and that nobody else holds. What is under the
other slots is the bootloader's.
-/

namespace Asnu

open Lib

theorem tablePtr_inj {f g : Frame} (h : tablePtr f = tablePtr g) : f = g := by
  have hf := f.isLt
  have hg := g.isLt
  have hnat := congrArg BitVec.toNat h
  rw [tablePtr_toNat, tablePtr_toNat] at hnat
  apply BitVec.eq_of_toNat_eq
  omega

namespace Vmm

/-- The frames this code has taken from the allocator, as blocks. -/
def blocks (s : Vmm) : List Block := s.taken.map (fun p => ⟨p, 4096⟩)

/-- The tables as seen through some slots of the PML4. -/
def view (s : Vmm) (slots : Finset Index) (f : Frame) (i : Index) : Entry :=
  if f = s.root ∧ i ∉ slots then 0#64 else rd s.pmm.mem f i

def viewNode (s : Vmm) (slots : Finset Index) (q : List Index) : Option Frame :=
  Radix.node Entry.next (s.view slots) 0 s.root q

def viewTranslate (s : Vmm) (slots : Finset Index) (page : Page) : Option Translation :=
  Translation.ofEntries page (Radix.walk Entry.next (s.view slots) 0 s.root (path page))

theorem viewTranslate_congr {s s' : Vmm} {slots : Finset Index} (hroot : s'.root = s.root)
    (hview : ∀ q t i, s.viewNode slots q = some t → s'.view slots t i = s.view slots t i)
    (page : Page) : s'.viewTranslate slots page = s.viewTranslate slots page := by
  rw [viewTranslate, viewTranslate, hroot]
  exact congrArg _ (Radix.walk_congr (fun p t i ht _ => hview p t i ht))

/-- A frame that `palloc` answers with was held by nobody, and now is by this
code. -/
theorem held_palloc {live : List Block} {s : Vmm}
    (h : Ledger.Held { pmm := s.pmm, live := s.blocks ++ live }) (hnull : s.palloc.1 ≠ NULL) :
    Ledger.Held { pmm := s.palloc.2.pmm, live := s.palloc.2.blocks ++ live } ∧
      ∀ b ∈ s.blocks ++ live, b.ptr ≠ s.palloc.1 := by
  have hpalloc : Asnu.palloc s.pmm = (s.palloc.1, s.palloc.2.pmm) := rfl
  have hblocks : s.palloc.2.blocks = ⟨s.palloc.1, 4096⟩ :: s.blocks := by
    rw [blocks, palloc_taken, List.map_cons, blocks]
  rw [palloc_eq] at hpalloc
  cases hfree : s.pmm.firstFree with
  | none =>
      rw [hfree] at hpalloc
      exact absurd (Prod.mk.inj hpalloc).1.symm hnull
  | some k =>
      rw [hfree] at hpalloc
      obtain ⟨hptr, hpmm⟩ := Prod.mk.inj hpalloc
      have hgrant := h.grant 4096 hfree
      rw [Ledger.grant, if_neg (by rwa [hptr]), hptr] at hgrant
      rw [hblocks, ← hpmm]
      exact ⟨hgrant, fun b hb heq => h.ptr_ne_free hfree hb (heq.trans hptr.symm)⟩

structure Owned (slots : Finset Index) (live : List Block) (s : Vmm) : Prop where
  pml4 : s.pml4 = tablePtr s.root
  made : ∃ made, s.taken = made ++ [s.pml4]
  unshared : Radix.Unshared Entry.next (s.view slots) s.root
  links : ∀ q t i, s.viewNode slots q = some t → q.length < 3 →
    Entry.present (s.view slots t i) →
      ∃ f, s.view slots t i = Entry.linking f ∧ tablePtr f ∈ s.taken
  held : Ledger.Held { pmm := s.pmm, live := s.blocks ++ live }
  misses : ∀ p ∈ s.taken, s.pmm.MissesBitmap p

namespace Owned

variable {slots : Finset Index} {live : List Block} {s : Vmm}

theorem mem_blocks {p : Ptr} (hp : p ∈ s.taken) : (⟨p, 4096⟩ : Block) ∈ s.blocks :=
  List.mem_map.mpr ⟨p, hp, rfl⟩

/-- A table below the root is linked by the entry that leads to it. -/
theorem node_link (h : Owned slots live s) {p : List Index} {i : Index} {g : Frame}
    (hg : s.viewNode slots (p ++ [i]) = some g) :
    ∃ t, s.viewNode slots p = some t ∧ s.view slots t i = Entry.linking g ∧
      tablePtr g ∈ s.taken := by
  obtain ⟨t, ht, hnext⟩ := Radix.node_snoc_inv _ _ _ p i hg
  have hp : p.length < 3 ∧ Entry.present (s.view slots t i) := by
    by_contra hnot
    rw [Entry.next, if_neg (fun hall => hnot ⟨hall.1, hall.2.1⟩)] at hnext
    exact absurd hnext (by simp)
  obtain ⟨f, hlink, hf⟩ := h.links p t i ht hp.1 hp.2
  rw [hlink, Entry.next_linking hp.1] at hnext
  obtain rfl := Option.some.inj hnext
  exact ⟨t, ht, hlink, hf⟩

/-- Every table of the tree is in a frame taken. -/
theorem node_taken (h : Owned slots live s) {q : List Index} {f : Frame}
    (hq : s.viewNode slots q = some f) : tablePtr f ∈ s.taken := by
  rcases List.eq_nil_or_concat' q with rfl | ⟨p, i, rfl⟩
  · obtain rfl : s.root = f := Option.some.inj hq
    obtain ⟨made, hmade⟩ := h.made
    rw [hmade, h.pml4]
    exact List.mem_append_right _ (List.mem_singleton_self _)
  · obtain ⟨_, _, _, hf⟩ := h.node_link hq
    exact hf

theorem not_records (s : Vmm) {p x : Ptr} (hmiss : s.pmm.MissesBitmap p)
    (hx : InRange p 4096 x) : ¬ s.Records x := by
  rintro ⟨j, hj, heq⟩
  exact hmiss.ne_slot hx hj heq

/-- A change that leaves the tables alone. -/
theorem congr {s' : Vmm} {live' : List Block} (h : Owned slots live s)
    (hroot : s'.root = s.root) (hpml4 : s'.pml4 = s.pml4)
    (hfile : s'.pmm.file = s.pmm.file) {fresh : List Ptr} (htaken : s'.taken = fresh ++ s.taken)
    (hmisses : ∀ p ∈ fresh, s.pmm.MissesBitmap p)
    (hrd : ∀ f, tablePtr f ∈ s.taken → ∀ i, rd s'.pmm.mem f i = rd s.pmm.mem f i)
    (hheld : Ledger.Held { pmm := s'.pmm, live := s'.blocks ++ live' }) :
    Owned slots live' s' ∧ (∀ q, s'.viewNode slots q = s.viewNode slots q) ∧
      ∀ q t i, s.viewNode slots q = some t → s'.view slots t i = s.view slots t i := by
  have hview : ∀ q t i, s.viewNode slots q = some t →
      s'.view slots t i = s.view slots t i := by
    intro q t i hq
    rw [view, view, hroot, hrd t (h.node_taken hq) i]
  have hnode : ∀ q, s'.viewNode slots q = s.viewNode slots q := by
    intro q
    rw [viewNode, hroot]
    exact Radix.node_congr (fun p t i ht _ => hview p t i ht)
  refine ⟨⟨by rw [hpml4, hroot, h.pml4], ?_, ?_, fun q t i ht hd hpresent => ?_, hheld, ?_⟩,
    hnode, hview⟩
  · obtain ⟨made, hmade⟩ := h.made
    exact ⟨fresh ++ made, by rw [htaken, hpml4, hmade, List.append_assoc]⟩
  · refine Radix.Unshared.of_node_inj (fun p q f hp hq => ?_)
    rw [hroot] at hp hq
    have hp' : s.viewNode slots p = some f := (hnode p).symm.trans (by rw [viewNode, hroot]; exact hp)
    have hq' : s.viewNode slots q = some f := (hnode q).symm.trans (by rw [viewNode, hroot]; exact hq)
    exact h.unshared.node_inj hp' hq'
  · rw [hnode] at ht
    rw [hview q t i ht] at hpresent ⊢
    obtain ⟨f, hlink, hf⟩ := h.links q t i ht hd hpresent
    exact ⟨f, hlink, htaken ▸ List.mem_append_right _ hf⟩
  · intro p hp
    rw [htaken] at hp
    rcases List.mem_append.mp hp with hp | hp
    · exact (hmisses p hp).of_file_eq hfile
    · exact (h.misses p hp).of_file_eq hfile

/-- The bitmap does not change where it is not written. -/
theorem held_of_bytes {s' : Vmm} (h : Owned slots live s) (hfile : s'.pmm.file = s.pmm.file)
    (htaken : s'.taken = s.taken)
    (hbytes : ∀ k < s.pmm.file.bitmapLength.toNat,
      s'.pmm.mem (s.pmm.file.bitmapBase + BitVec.ofNat 64 k) =
        s.pmm.mem (s.pmm.file.bitmapBase + BitVec.ofNat 64 k)) :
    Ledger.Held { pmm := s'.pmm, live := s'.blocks ++ live } := by
  have hblocks : s'.blocks = s.blocks := by rw [blocks, blocks, htaken]
  rw [hblocks]
  exact h.held.of_bits hfile (fun j hj => Pmm.bit_of_bytes_eq hfile hbytes hj)
    (List.Perm.refl _)

/-- A frame that `palloc` answers with joins those taken. It is none of the
tables, and no client has it. -/
theorem palloc (h : Owned slots live s) {g : Frame} (hptr : s.palloc.1 = tablePtr g)
    (hnull : s.palloc.1 ≠ NULL) (hmiss : s.pmm.MissesBitmap (tablePtr g)) :
    Owned slots live s.palloc.2 ∧ (∀ q, s.palloc.2.viewNode slots q = s.viewNode slots q) ∧
      (∀ q t i, s.viewNode slots q = some t → s.palloc.2.view slots t i = s.view slots t i) ∧
      ∀ q, s.viewNode slots q ≠ some g := by
  obtain ⟨hheld, hfresh⟩ := held_palloc h.held hnull
  obtain ⟨howned, hnode, hview⟩ := h.congr (palloc_root s) (palloc_pml4 s) (palloc_file s)
    (show s.palloc.2.taken = [tablePtr g] ++ s.taken by
      rw [palloc_taken, hptr, List.singleton_append])
    (fun p hp => List.mem_singleton.mp hp ▸ hmiss)
    (fun f hf i => rd_congr (fun x hx => s.palloc_mem_out
      (not_records s (h.misses _ hf) hx)) i) hheld
  refine ⟨howned, hnode, hview, fun q hq => ?_⟩
  exact hfresh _ (List.mem_append_left live (mem_blocks (h.node_taken hq))) hptr.symm

/-- The root is the table of the empty path only. -/
theorem ne_root (h : Owned slots live s) {q : List Index} {t : Frame}
    (hq : s.viewNode slots q = some t) (hne : q ≠ []) : t ≠ s.root := by
  rintro rfl
  exact hne (h.unshared.node_inj hq (q := []) rfl)

/-- In the slots the hardware sees what the view shows. -/
theorem translate_eq (h : Owned slots live s) {page : Page}
    (hslot : page.extractLsb' 27 9 ∈ slots) : s.translate page = s.viewTranslate slots page := by
  rw [translate, Asnu.translate, Asnu.entries, viewTranslate]
  refine congrArg _ (Radix.walk_congr (fun p t i ht hpath => (if_neg ?_).symm))
  rintro ⟨rfl, hi⟩
  -- the root is read at the first index only
  obtain rfl : p = [] := h.unshared.node_inj ht (q := []) rfl
  obtain ⟨r, hr⟩ := hpath
  obtain ⟨rfl, _⟩ := List.cons.inj hr
  exact hi hslot

/-- Stores into taken frames that leave a tree of links behind. -/
theorem rewritten {s' : Vmm} (h : Owned slots live s) (hroot : s'.root = s.root)
    (hpml4 : s'.pml4 = s.pml4) (htaken : s'.taken = s.taken)
    (hfile : s'.pmm.file = s.pmm.file)
    (hbytes : ∀ x, (∀ f, tablePtr f ∈ s.taken → ¬ InRange (tablePtr f) 4096 x) →
      s'.pmm.mem x = s.pmm.mem x)
    (hunshared : Radix.Unshared Entry.next (s'.view slots) s.root)
    (hlinks : ∀ q t i, s'.viewNode slots q = some t → q.length < 3 →
      Entry.present (s'.view slots t i) →
        ∃ f, s'.view slots t i = Entry.linking f ∧ tablePtr f ∈ s.taken) :
    Owned slots live s' where
  pml4 := by rw [hpml4, hroot, h.pml4]
  made := by
    rw [htaken, hpml4]
    exact h.made
  unshared := by
    rw [hroot]
    exact hunshared
  links := by
    rw [htaken]
    exact hlinks
  held := h.held_of_bytes hfile htaken (fun k hk =>
    hbytes _ (fun f hf => h.misses _ hf k hk))
  misses := fun p hp => (h.misses p (htaken ▸ hp)).of_file_eq hfile

/-- The stores seen through the slots. -/
theorem view_link {s' : Vmm} {t g : Frame} {i : Index} (hroot : s'.root = s.root)
    (hslot : t = s.root → i ∈ slots) (hgroot : g ≠ s.root)
    (hmem : s'.pmm.mem = (s.pmm.mem.fill (tablePtr g) 4096 0#8).store64 (entryPtr t i)
      (Entry.linking g)) :
    s'.view slots = Radix.link (s.view slots) t i g (Entry.linking g) 0#64 := by
  funext f j
  simp only [view, hroot, hmem, rd_store64, rd_fill, Radix.link, Radix.setEntry, Radix.blank]
  by_cases hmask : f = s.root ∧ j ∉ slots
  · have hself : ¬ (f = t ∧ j = i) := by
      rintro ⟨rfl, rfl⟩
      exact hmask.2 (hslot hmask.1)
    have hfg : f ≠ g := fun heq => hgroot (heq ▸ hmask.1)
    rw [if_pos hmask, if_neg hself, if_neg hfg, if_pos hmask]
  · rw [if_neg hmask, if_neg hmask]

theorem view_leaf {s' : Vmm} {t : Frame} {i : Index} {e : Entry} (hroot : s'.root = s.root)
    (htroot : t ≠ s.root) (hmem : s'.pmm.mem = s.pmm.mem.store64 (entryPtr t i) e) :
    s'.view slots = Radix.setEntry (s.view slots) t i e := by
  funext f j
  simp only [view, hroot, hmem, rd_store64, Radix.setEntry]
  by_cases hself : f = t ∧ j = i
  · rw [if_pos hself, if_pos hself, if_neg (fun hmask => htroot (hself.1 ▸ hmask.1))]
  · rw [if_neg hself, if_neg hself]

section Stores

variable {s' : Vmm} {p : List Index} {t g : Frame} {i : Index}
  (h : Owned slots live s) (hroot : s'.root = s.root) (hpml4 : s'.pml4 = s.pml4)
  (htaken : s'.taken = s.taken) (hfile : s'.pmm.file = s.pmm.file)
  (ht : s.viewNode slots p = some t)
include h hroot hpml4 htaken hfile ht

/-- A table taken is zeroed, and linked under an entry that is not present. -/
theorem link (hd : p.length < 3) (hslot : t = s.root → i ∈ slots)
    (habsent : ¬ Entry.present (s.view slots t i)) (hg : tablePtr g ∈ s.taken)
    (hfresh : ∀ q, s.viewNode slots q ≠ some g)
    (hmem : s'.pmm.mem = (s.pmm.mem.fill (tablePtr g) 4096 0#8).store64 (entryPtr t i)
      (Entry.linking g)) :
    Owned slots live s' ∧ s'.viewNode slots (p ++ [i]) = some g ∧
      ∀ page, s'.viewTranslate slots page = s.viewTranslate slots page := by
  have hview := view_link hroot hslot (fun heq => hfresh [] (congrArg some heq.symm)) hmem
  have hlinks : Radix.Links Entry.next (s.view slots) s.root p t i g (Entry.linking g) 0#64 :=
    ⟨h.unshared, ht, hfresh, Entry.next_of_not_present habsent, Entry.next_linking hd g,
      Entry.next_zero⟩
  have hnode : ∀ q f, s'.viewNode slots q = some f ↔
      s.viewNode slots q = some f ∨ (q = p ++ [i] ∧ f = g) := by
    intro q f
    rw [viewNode, hview, hroot]
    exact hlinks.node_link q f
  have hbytes : ∀ x, (∀ f, tablePtr f ∈ s.taken → ¬ InRange (tablePtr f) 4096 x) →
      s'.pmm.mem x = s.pmm.mem x := by
    intro x hx
    rw [hmem, Memory.store64_out _ _ (fun hin => hx t (h.node_taken ht) (inRange_table hin)),
      Memory.fill_out _ _ (hx g hg)]
  refine ⟨h.rewritten hroot hpml4 htaken hfile hbytes ?_ (fun q f j hq hlen hpresent => ?_),
    (hnode _ g).mpr (Or.inr ⟨rfl, rfl⟩), fun page => ?_⟩
  · rw [hview]
    exact hlinks.link_unshared
  · rw [hview] at hpresent ⊢
    rcases (hnode q f).mp hq with hold | ⟨_, rfl⟩
    · by_cases hself : f = t ∧ j = i
      · obtain ⟨rfl, rfl⟩ := hself
        exact ⟨g, if_pos ⟨rfl, rfl⟩, hg⟩
      · have hne : f ≠ g := fun heq => hfresh q (heq ▸ hold)
        have hkept : Radix.link (s.view slots) t i g (Entry.linking g) 0#64 f j =
            s.view slots f j := by
          rw [Radix.link, Radix.setEntry, if_neg hself, Radix.blank, if_neg hne]
        rw [hkept] at hpresent ⊢
        exact h.links q f j hold hlen hpresent
    · rw [hlinks.link_new] at hpresent
      exact absurd hpresent (by decide)
  · rw [viewTranslate, hview, hroot]
    exact ofEntries_link hlinks hd habsent page

/-- A store into a last table changes no link, and no translation of a page that
does not end there. -/
theorem leaf (hd : p.length = 3) {e : Entry}
    (hmem : s'.pmm.mem = s.pmm.mem.store64 (entryPtr t i) e) :
    Owned slots live s' ∧ (∀ q, s'.viewNode slots q = s.viewNode slots q) ∧
      ∀ page, path page ≠ p ++ [i] →
        s'.viewTranslate slots page = s.viewTranslate slots page := by
  have hview : s'.view slots = Radix.setEntry (s.view slots) t i e :=
    view_leaf hroot (h.ne_root ht (by rintro rfl; simp at hd)) hmem
  have hlast : ∀ e, Entry.next p.length e = none := by
    rw [hd]
    exact Entry.next_last
  have hnode : ∀ q, s'.viewNode slots q = s.viewNode slots q := by
    intro q
    rw [viewNode, hview, hroot]
    exact Radix.node_setEntry_of_next_eq h.unshared ht ((hlast e).trans (hlast _).symm)
      (hlast e) q
  have hbytes : ∀ x, (∀ f, tablePtr f ∈ s.taken → ¬ InRange (tablePtr f) 4096 x) →
      s'.pmm.mem x = s.pmm.mem x := by
    intro x hx
    rw [hmem, Memory.store64_out _ _ (fun hin => hx t (h.node_taken ht) (inRange_table hin))]
  refine ⟨h.rewritten hroot hpml4 htaken hfile hbytes ?_ (fun q f j hq hlen hpresent => ?_),
    hnode, fun page hpage => ?_⟩
  · exact h.unshared.of_node_eq (fun q => by
      have heq := hnode q
      rwa [viewNode, hroot] at heq)
  · rw [hnode] at hq
    have hne : f ≠ t := by
      rintro rfl
      rw [h.unshared.node_inj hq ht] at hlen
      exact absurd hlen (by omega)
    have hkept : s'.view slots f j = s.view slots f j := by
      rw [hview]
      exact if_neg (fun hself => hne hself.1)
    rw [hkept] at hpresent ⊢
    exact h.links q f j hq hlen hpresent
  · have hthrough : ¬ p ++ [i] <+: path page := fun hpath =>
      hpage (hpath.eq_of_length (by simp [hd, path])).symm
    rw [viewTranslate, hview, hroot, Radix.walk_setEntry h.unshared e ht hthrough]
    rfl

end Stores

/-! ### The requests -/

theorem view_eq {t : Frame} {i : Index} (hslot : t = s.root → i ∈ slots) :
    s.view slots t i = rd s.pmm.mem t i :=
  if_neg (fun hmask => hmask.2 (hslot hmask.1))

/-- The code follows a present entry to the table that it links. -/
theorem follows (h : Owned slots live s) {p : List Index} {t : Frame} {i : Index}
    (ht : s.viewNode slots p = some t) (hd : p.length < 3) (hslot : t = s.root → i ∈ slots)
    (hpresent : s.load (tablePtr t) (i.setWidth 64) &&& pagePresent ≠ 0#64) :
    ∃ g, s.viewNode slots (p ++ [i]) = some g ∧
      pa2vaU64 (s.load (tablePtr t) (i.setWidth 64) &&& ~~~0xFFF#64) = tablePtr g := by
  rw [load_eq_rd, ← view_eq hslot] at hpresent ⊢
  obtain ⟨g, hlink, _⟩ := h.links p t i ht hd ((Entry.present_iff _).mpr hpresent)
  have hframe : Entry.frame (Entry.linking g) = g := frame_address_or g (by decide)
  refine ⟨g, ?_, ?_⟩
  · rw [viewNode, Radix.node_snoc _ _ _ p i ht, hlink, Entry.next_linking hd]
  · rw [hlink, Entry.pointer_eq (Entry.linking_plain 0 g).2, hframe]

end Owned

/-- `palloc` answers with a frame of the direct map that holds no byte of the
bitmap. -/
def Takes (s : Vmm) : Prop :=
  ∃ g, s.palloc.1 = tablePtr g ∧ s.palloc.1 ≠ NULL ∧ s.pmm.MissesBitmap (tablePtr g)

/-- The slot of the PML4 that an address uses. -/
def slot (va : Ptr) : Index := (pageOf va).extractLsb' 27 9

namespace Owned

variable {slots : Finset Index} {live : List Block} {s : Vmm}

theorem nextTable (h : Owned slots live s) {p : List Index} {t : Frame} {i : Index}
    (ht : s.viewNode slots p = some t) (hd : p.length < 3) (hslot : t = s.root → i ∈ slots)
    (htakes : s.load (tablePtr t) (i.setWidth 64) &&& pagePresent = 0#64 → s.Takes) :
    ∃ g, (Asnu.nextTable s (tablePtr t) (i.setWidth 64)).1 = tablePtr g ∧
      Owned slots live (Asnu.nextTable s (tablePtr t) (i.setWidth 64)).2 ∧
      (Asnu.nextTable s (tablePtr t) (i.setWidth 64)).2.viewNode slots (p ++ [i]) = some g ∧
      ∀ page, (Asnu.nextTable s (tablePtr t) (i.setWidth 64)).2.viewTranslate slots page =
        s.viewTranslate slots page := by
  by_cases hzero : s.load (tablePtr t) (i.setWidth 64) &&& pagePresent = 0#64
  · obtain ⟨g, hptr, hnull, hmiss⟩ := htakes hzero
    obtain ⟨howned, hnode, hview, hfresh⟩ := h.palloc hptr hnull hmiss
    have habsent : ¬ Entry.present (s.palloc.2.view slots t i) := by
      rw [hview p t i ht, view_eq hslot, Entry.present_iff, ← load_eq_rd]
      exact fun hne => hne hzero
    have hg : tablePtr g ∈ s.palloc.2.taken := by
      rw [palloc_taken, hptr]
      exact List.mem_cons_self
    obtain ⟨hlinked, hnew, hkept⟩ := howned.link (linked_root s t i g)
      (linked_pml4 s t i g) (linked_taken s t i g)
      ((linked_file s t i g).trans (palloc_file s).symm) ((hnode p).trans ht) hd hslot habsent
      hg (fun q => by rw [hnode q]; exact hfresh q) (linked_mem s t i g)
    rw [nextTable_absent hzero hptr]
    exact ⟨g, rfl, hlinked, hnew, fun page =>
      (hkept page).trans (viewTranslate_congr (palloc_root s) hview page)⟩
  · obtain ⟨g, hg, hptr⟩ := h.follows ht hd hslot hzero
    rw [nextTable_present hzero hptr]
    exact ⟨g, rfl, h, hg, fun _ => rfl⟩

theorem path_ne {page other : Page} (hne : other ≠ page) :
    path other ≠ upper page ++ [lastIndex page] :=
  fun heq => hne (path_inj (heq.trans (path_eq page).symm))

theorem storeLeaf (h : Owned slots live s) {page : Page} {pt : Frame}
    (hpt : s.viewNode slots (upper page) = some pt) (e : Entry) :
    Owned slots live (s.storeLeaf pt page e) ∧
      (∀ q, (s.storeLeaf pt page e).viewNode slots q = s.viewNode slots q) ∧
      ∀ other ≠ page, (s.storeLeaf pt page e).viewTranslate slots other =
        s.viewTranslate slots other := by
  obtain ⟨howned, hnode, hkept⟩ := h.leaf (storeLeaf_root s pt page e)
    (storeLeaf_pml4 s pt page e) (storeLeaf_taken s pt page e) (withMem_file _ _) hpt rfl
    (storeLeaf_mem s pt page e)
  exact ⟨howned, hnode, fun other hne => hkept other (path_ne hne)⟩

/-- The end of `unmap`. -/
theorem clearLeaf (h : Owned slots live s) {page : Page} {pt : Frame}
    (hpt : s.viewNode slots (upper page) = some pt) (va : Ptr) :
    Owned slots live ((s.storeLeaf pt page 0#64).invlpg va) ∧
      ((s.storeLeaf pt page 0#64).invlpg va).viewTranslate slots page = none ∧
      ∀ other ≠ page, ((s.storeLeaf pt page 0#64).invlpg va).viewTranslate slots other =
        s.viewTranslate slots other := by
  have hroot : ((s.storeLeaf pt page 0#64).invlpg va).root = s.root := by
    rw [invlpg_root, storeLeaf_root]
  have hmem : ((s.storeLeaf pt page 0#64).invlpg va).pmm.mem =
      s.pmm.mem.store64 (entryPtr pt (lastIndex page)) 0#64 := by
    rw [invlpg_pmm, storeLeaf_mem]
  obtain ⟨howned, hnode, hkept⟩ := h.leaf hroot (by rw [invlpg_pml4, storeLeaf_pml4])
    (by rw [invlpg_taken, storeLeaf_taken]) (by rw [invlpg_pmm]; exact withMem_file _ _) hpt rfl
    hmem
  refine ⟨howned, ?_, fun other hne => hkept other (path_ne hne)⟩
  refine ofEntries_absent (path_eq page) ((hnode _).trans hpt) ?_
  rw [view_leaf hroot (h.ne_root hpt (by simp [upper])) hmem, Radix.setEntry, if_pos ⟨rfl, rfl⟩]
  decide

/-- `mmap` leads to a last table for the page and stores into it. -/
theorem mmap_spec (h : Owned slots live s) {va : Ptr} (hslot : slot va ∈ slots)
    (htakes : s.EachPalloc Takes va) (pa : Ptr) (flags : BitVec 64) :
    ∃ m pt, Owned slots live m ∧ m.viewNode slots (upper (pageOf va)) = some pt ∧
      (∀ page, m.viewTranslate slots page = s.viewTranslate slots page) ∧
      Asnu.mmap s va pa flags = m.rewriteLeaf pt (pageOf va) (leafEntry pa flags) := by
  obtain ⟨h39, h30, h21, _⟩ := indices_eq va
  have hmmap := mmap_levels s va pa flags
  unfold EachPalloc at htakes
  simp only [h39, h30, h21, h.pml4] at hmmap htakes
  obtain ⟨htakes1, htakes2, htakes3⟩ := htakes
  obtain ⟨t1, hptr1, howned1, hnode1, hkept1⟩ := h.nextTable (p := [])
    (i := (pageOf va).extractLsb' 27 9) rfl (by decide) (fun _ => hslot) htakes1
  rw [hptr1] at hmmap htakes2 htakes3
  obtain ⟨t2, hptr2, howned2, hnode2, hkept2⟩ := howned1.nextTable hnode1 (by simp)
    (fun heq => absurd heq (howned1.ne_root hnode1 (by simp))) htakes2
  rw [hptr2] at hmmap htakes3
  obtain ⟨t3, hptr3, howned3, hnode3, hkept3⟩ := howned2.nextTable hnode2 (by simp)
    (fun heq => absurd heq (howned2.ne_root hnode2 (by simp))) htakes3
  rw [hptr3] at hmmap
  exact ⟨_, t3, howned3, hnode3, fun page =>
    (hkept3 page).trans ((hkept2 page).trans (hkept1 page)), hmmap⟩

theorem rewriteLeaf (h : Owned slots live s) {page : Page} {pt : Frame}
    (hpt : s.viewNode slots (upper page) = some pt) (e : Entry) :
    Owned slots live (s.rewriteLeaf pt page e) ∧
      (s.rewriteLeaf pt page e).viewNode slots (upper page) = some pt ∧
      ∀ other ≠ page, (s.rewriteLeaf pt page e).viewTranslate slots other =
        s.viewTranslate slots other := by
  obtain ⟨hcleared, hnode, hkept⟩ := h.storeLeaf hpt 0#64
  obtain ⟨hstored, hnode', hkept'⟩ := hcleared.storeLeaf ((hnode _).trans hpt) e
  exact ⟨hstored, (hnode' _).trans ((hnode _).trans hpt), fun other hne =>
    (hkept' other hne).trans (hkept other hne)⟩

theorem mmap (h : Owned slots live s) {va : Ptr} (hslot : slot va ∈ slots)
    (htakes : s.EachPalloc Takes va) (pa : Ptr) (flags : BitVec 64) :
    Owned slots live (Asnu.mmap s va pa flags) ∧ ∀ other ≠ pageOf va,
      (Asnu.mmap s va pa flags).viewTranslate slots other = s.viewTranslate slots other := by
  obtain ⟨m, pt, howned, hpt, hkept, heq⟩ := h.mmap_spec hslot htakes pa flags
  obtain ⟨hstored, _, hkept'⟩ := howned.rewriteLeaf hpt (leafEntry pa flags)
  rw [heq]
  exact ⟨hstored, fun other hne => (hkept' other hne).trans (hkept other)⟩

/-- The hardware reads three linking entries and the one in the last table. -/
theorem entries_eq (h : Owned slots live s) {page : Page}
    (hslot : page.extractLsb' 27 9 ∈ slots) {pt : Frame}
    (hpt : s.viewNode slots (upper page) = some pt) :
    ∃ t1 t2, (∀ f ∈ [t1, t2, pt], tablePtr f ∈ s.taken) ∧
      s.entries page = [Entry.linking t1, Entry.linking t2, Entry.linking pt,
        rd s.pmm.mem pt (lastIndex page)] := by
  obtain ⟨t2, hnode2, hview3, htaken3⟩ := h.node_link
    (p := [page.extractLsb' 27 9, page.extractLsb' 18 9]) hpt
  obtain ⟨t1, hnode1, hview2, htaken2⟩ := h.node_link (p := [page.extractLsb' 27 9]) hnode2
  obtain ⟨r, hroot, hview1, htaken1⟩ := h.node_link (p := []) hnode1
  obtain rfl : s.root = r := Option.some.inj hroot
  rw [view_eq (fun _ => hslot)] at hview1
  rw [view_eq (fun heq => absurd heq (h.ne_root hnode1 (by simp)))] at hview2
  rw [view_eq (fun heq => absurd heq (h.ne_root hnode2 (by simp)))] at hview3
  refine ⟨t1, t2, by simpa using ⟨htaken1, htaken2, htaken3⟩, ?_⟩
  simp only [entries, Asnu.entries, path, Radix.walk, hview1, hview2, hview3,
    Entry.next_linking (show 0 < 3 by decide), Entry.next_linking (show 0 + 1 < 3 by decide),
    Entry.next_linking (show 0 + 1 + 1 < 3 by decide), lastIndex]
  split <;> rfl

/-- What the hardware reads after `mmap`. -/
theorem mmap_entries (h : Owned slots live s) {va : Ptr} (hslot : slot va ∈ slots)
    (htakes : s.EachPalloc Takes va) (pa : Ptr) (flags : BitVec 64) :
    ∃ t1 t2 t3, (∀ f ∈ [t1, t2, t3], tablePtr f ∈ (Asnu.mmap s va pa flags).taken) ∧
      (Asnu.mmap s va pa flags).entries (pageOf va) =
        [Entry.linking t1, Entry.linking t2, Entry.linking t3, leafEntry pa flags] := by
  obtain ⟨m, pt, howned, hpt, _, heq⟩ := h.mmap_spec hslot htakes pa flags
  rw [heq]
  obtain ⟨hstored, hnode, _⟩ := howned.rewriteLeaf hpt (leafEntry pa flags)
  obtain ⟨t1, t2, htaken, hentries⟩ := hstored.entries_eq hslot hnode
  refine ⟨t1, t2, pt, htaken, ?_⟩
  rw [hentries, rd_rewriteLeaf, Radix.setEntry, if_pos ⟨rfl, rfl⟩]

/-- `unmap` returns at a table that is missing, or clears the entry of the page. -/
theorem unmap (h : Owned slots live s) {va : Ptr} (hslot : slot va ∈ slots) :
    Owned slots live (Asnu.unmap s va) ∧
      (Asnu.unmap s va).viewTranslate slots (pageOf va) = none ∧
      ∀ other ≠ pageOf va,
        (Asnu.unmap s va).viewTranslate slots other = s.viewTranslate slots other := by
  have hreturns : ∀ {p r : List Index} {i : Index} {t : Frame}, path (pageOf va) = p ++ i :: r →
      s.viewNode slots p = some t → (t = s.root → i ∈ slots) →
      s.load (tablePtr t) (i.setWidth 64) &&& pagePresent = 0#64 →
      Owned slots live s ∧ s.viewTranslate slots (pageOf va) = none ∧
        ∀ other ≠ pageOf va, s.viewTranslate slots other = s.viewTranslate slots other := by
    intro p r i t hpath ht hslot hzero
    refine ⟨h, ofEntries_absent hpath ht ?_, fun _ _ => rfl⟩
    rw [view_eq hslot, Entry.present_iff, ← load_eq_rd]
    exact fun hne => hne hzero
  obtain ⟨h39, h30, h21, h12⟩ := indices_eq va
  simp only [Asnu.unmap, h39, h30, h21, h12, h.pml4]
  split
  · next hzero => exact hreturns (p := []) rfl rfl (fun _ => hslot) hzero
  · next hne1 =>
      obtain ⟨t1, hnode1, hptr1⟩ := h.follows (p := [])
        (i := (pageOf va).extractLsb' 27 9) rfl (by decide) (fun _ => hslot) hne1
      have hroot1 : t1 ≠ s.root := h.ne_root hnode1 (by simp)
      rw [hptr1]
      split
      · next hzero => exact hreturns rfl hnode1 (fun heq => absurd heq hroot1) hzero
      · next hne2 =>
          obtain ⟨t2, hnode2, hptr2⟩ := h.follows hnode1 (by simp)
            (fun heq => absurd heq hroot1) hne2
          have hroot2 : t2 ≠ s.root := h.ne_root hnode2 (by simp)
          rw [hptr2]
          split
          · next hzero => exact hreturns rfl hnode2 (fun heq => absurd heq hroot2) hzero
          · next hne3 =>
              obtain ⟨t3, hnode3, hptr3⟩ := h.follows hnode2 (by simp)
                (fun heq => absurd heq hroot2) hne3
              rw [hptr3]
              exact h.clearLeaf hnode3 va

end Owned

end Vmm

end Asnu
