import Asnu.Vmm.Vmm

/-!
What the stores of `mmap` and `unmap` do to the tree under `PML4`. A new table
is linked without any translation changing, and a store into a last table is
seen by one page. Both need that the pointer the code computes from an entry is
the table the hardware goes to.
-/

namespace Asnu

open Lib

/-- An entry whose address field is all that `& ~0xFFF` leaves of it, and which
the hardware follows to a table if it is present. -/
def Entry.Plain (d : Nat) (e : Entry) : Prop := ¬ Entry.large d e ∧ e.toNat < 2 ^ 52

instance (d : Nat) (e : Entry) : Decidable (Entry.Plain d e) :=
  inferInstanceAs (Decidable (_ ∧ _))

namespace Entry

theorem present_iff (e : Entry) : present e ↔ e &&& pagePresent ≠ 0#64 := by
  have hone : pagePresent.toNat = 2 ^ 1 - 1 := rfl
  rw [ne_eq, ← BitVec.toNat_inj, BitVec.toNat_and, hone,
    Nat.and_two_pow_sub_one_eq_mod]
  simp [present, BitVec.getLsbD, Nat.testBit_zero]

theorem next_of_plain {d : Nat} {e : Entry} (hd : d < 3) (hp : present e)
    (h : Plain d e) : next d e = some (frame e) :=
  if_pos ⟨hd, hp, h.1⟩

theorem next_of_not_present {d : Nat} {e : Entry} (h : ¬ present e) :
    next d e = none :=
  if_neg (fun hall => h hall.2.1)

/-- The last level leads to no table. -/
theorem next_last (e : Entry) : next 3 e = none :=
  if_neg (fun hall => absurd hall.1 (by decide))

theorem next_zero (d : Nat) : next d 0#64 = none :=
  next_of_not_present (by decide)

/-- The pointer the code follows. -/
theorem pointer_eq {e : Entry} (h : e.toNat < 2 ^ 52) :
    pa2vaU64 (e &&& ~~~0xFFF#64) = tablePtr (frame e) := by
  rw [clear_low_bits e h]
  rfl

/-- The entry that links a table. -/
def linking (f : Frame) : Entry := f.address ||| 3#64

theorem va2paU64_tablePtr (f : Frame) :
    va2paU64 (tablePtr f) ||| pagePresent ||| pageRw = linking f := by
  rw [va2paU64, tablePtr, pa2vaU64, BitVec.add_sub_cancel, BitVec.or_assoc]
  rfl

theorem linking_present (f : Frame) : present (linking f) := by
  simp [present, linking, Frame.address]

theorem linking_plain (d : Nat) (f : Frame) : Plain d (linking f) := by
  constructor
  · simp [large, linking, Frame.address]
  · have hf := f.isLt
    have hlow : (3#64).toNat = 3 := rfl
    rw [linking, address_or_toNat f (by decide), hlow]
    omega

theorem next_linking {d : Nat} (hd : d < 3) (f : Frame) :
    next d (linking f) = some f := by
  rw [next_of_plain hd (linking_present f) (linking_plain d f), linking,
    frame_address_or f (by decide)]

end Entry

theorem leafEntry_present (pa flags : BitVec 64) : Entry.present (leafEntry pa flags) := by
  simp [Entry.present, leafEntry, pagePresent]

namespace Vmm

def entries (s : Vmm) (page : Page) : List Entry :=
  Asnu.entries s.pmm.mem s.root page

/-- The table at the end of a path from the root. -/
def node (s : Vmm) (q : List Index) : Option Frame :=
  Radix.node Entry.next (rd s.pmm.mem) 0 s.root q

def IsTable (s : Vmm) (f : Frame) : Prop := ∃ q, s.node q = some f

/-- `PML4` points to the root, and what hangs under it is a tree. -/
structure Tree (s : Vmm) : Prop where
  pml4 : s.pml4 = tablePtr s.root
  unshared : Radix.Unshared Entry.next (rd s.pmm.mem) s.root

/-- `x` is a byte of the allocator's bitmap. -/
def Records (s : Vmm) (x : Ptr) : Prop :=
  ∃ j < s.pmm.bitCount, x = Bitmap.slot s.pmm.file.bitmapBase j

/-- `palloc` succeeds with a frame outside the tree, and its bitmap is not in
the tree either. -/
structure Grants (s : Vmm) (f : Frame) : Prop where
  pointer : (Asnu.palloc s.pmm).1 = tablePtr f
  success : (Asnu.palloc s.pmm).1 ≠ NULL
  fresh : ¬ s.IsTable f
  records : ∀ g, s.IsTable g → ∀ x, InRange (tablePtr g) 4096 x → ¬ s.Records x

/-- The entries that lead from table to table for a page are plain. -/
def PlainPath (s : Vmm) (page : Page) : Prop :=
  ∀ k < 3, ∀ e ∈ (s.entries page)[k]?, Entry.present e → Entry.Plain k e

instance (s : Vmm) (page : Page) : Decidable (s.PlainPath page) :=
  inferInstanceAs (Decidable (∀ k < 3, _))

/-- A present plain entry leads to the next table. -/
theorem node_of_plain {s : Vmm} {p : List Index} {t : Frame} {i : Index}
    (ht : s.node p = some t) (hd : p.length < 3)
    (hpresent : Entry.present (rd s.pmm.mem t i))
    (hplain : Entry.Plain p.length (rd s.pmm.mem t i)) :
    s.node (p ++ [i]) = some (Entry.frame (rd s.pmm.mem t i)) := by
  rw [node, Radix.node_snoc _ _ _ p i ht]
  exact Entry.next_of_plain hd hpresent hplain

theorem mem_cached {s : Vmm} {pages : List Page} {x : Page × Translation}
    (h : x ∈ s.cached pages) : s.translate x.1 = some x.2 := by
  obtain ⟨page, _, hx⟩ := List.mem_filterMap.mp h
  obtain ⟨t, ht, rfl⟩ := Option.map_eq_some_iff.mp hx
  exact ht

/-- No translation is different, and only such translations were cached. -/
structure Quiet (s s' : Vmm) : Prop where
  root : s'.root = s.root
  pml4 : s'.pml4 = s.pml4
  translate : ∀ page, s'.translate page = s.translate page
  cached : ∀ x ∈ s.tlb, x ∈ s'.tlb
  tlb : ∀ x ∈ s'.tlb, x ∈ s.tlb ∨ s.translate x.1 = some x.2

theorem Quiet.refl (s : Vmm) : Quiet s s :=
  ⟨rfl, rfl, fun _ => rfl, fun _ hx => hx, fun _ hx => Or.inl hx⟩

theorem Quiet.trans {s t u : Vmm} (h : Quiet s t) (h' : Quiet t u) : Quiet s u where
  root := h'.root.trans h.root
  pml4 := h'.pml4.trans h.pml4
  translate := fun page => (h'.translate page).trans (h.translate page)
  cached := fun x hx => h'.cached x (h.cached x hx)
  tlb := by
    intro x hx
    rcases h'.tlb x hx with hmem | htr
    · exact h.tlb x hmem
    · exact Or.inr ((h.translate x.1).symm.trans htr)

/-- What the hardware caches before a store, it caches from the state before. -/
theorem mem_accesses {s : Vmm} {x : Page × Translation} (h : x ∈ s.accesses.tlb) :
    x ∈ s.tlb ∨ s.translate x.1 = some x.2 := by
  rcases List.mem_append.mp h with hx | hx
  · exact Or.inr (mem_cached hx)
  · exact Or.inl hx

/-- `s'` has the tables of `s`, at the same paths, and perhaps some in the
frames of `fresh`; nothing but tables and the bitmap was written. -/
structure Extends (fresh : List Ptr) (s s' : Vmm) : Prop extends Quiet s s' where
  tree : s'.Tree
  file : s'.pmm.file = s.pmm.file
  taken : s'.taken = fresh ++ s.taken
  keeps : ∀ q f, s.node q = some f → s'.node q = some f
  news : ∀ q f, s'.node q = some f → s.node q = some f ∨ tablePtr f ∈ fresh
  kept : ∀ q t j, s.node q = some t → Entry.present (rd s.pmm.mem t j) →
    rd s'.pmm.mem t j = rd s.pmm.mem t j
  entry : ∀ q t j, s'.node q = some t →
    (s.node q = some t ∧ rd s'.pmm.mem t j = rd s.pmm.mem t j) ∨
      rd s'.pmm.mem t j = 0#64 ∨ ∃ f, rd s'.pmm.mem t j = Entry.linking f
  bytes : ∀ x, (∀ f, s'.IsTable f → ¬ InRange (tablePtr f) 4096 x) →
    ¬ s.Records x → s'.pmm.mem x = s.pmm.mem x

namespace Extends

theorem refl {s : Vmm} (h : s.Tree) : Extends [] s s where
  toQuiet := Quiet.refl s
  tree := h
  file := rfl
  taken := rfl
  keeps := fun _ _ hq => hq
  news := fun _ _ hq => Or.inl hq
  kept := fun _ _ _ _ _ => rfl
  entry := fun _ _ _ hq => Or.inl ⟨hq, rfl⟩
  bytes := fun _ _ _ => rfl

theorem isTable {fresh : List Ptr} {s s' : Vmm} (h : Extends fresh s s') {f : Frame}
    (hf : s.IsTable f) : s'.IsTable f :=
  hf.imp (fun q hq => h.keeps q f hq)

theorem records {fresh : List Ptr} {s s' : Vmm} (h : Extends fresh s s') (x : Ptr) :
    s'.Records x ↔ s.Records x := by
  rw [Records, Records, Pmm.bitCount, Pmm.bitCount, h.file]

theorem trans {fresh fresh' : List Ptr} {s t u : Vmm} (h : Extends fresh s t)
    (h' : Extends fresh' t u) : Extends (fresh' ++ fresh) s u where
  toQuiet := h.toQuiet.trans h'.toQuiet
  tree := h'.tree
  file := h'.file.trans h.file
  taken := by rw [h'.taken, h.taken, List.append_assoc]
  keeps := fun q f hq => h'.keeps q f (h.keeps q f hq)
  news := by
    intro q f hq
    rcases h'.news q f hq with hq | hnew
    · rcases h.news q f hq with hq | hnew
      · exact Or.inl hq
      · exact Or.inr (List.mem_append_right _ hnew)
    · exact Or.inr (List.mem_append_left _ hnew)
  kept := by
    intro q f j hq hpresent
    have heq := h.kept q f j hq hpresent
    rw [← heq] at hpresent
    exact (h'.kept q f j (h.keeps q f hq) hpresent).trans heq
  entry := by
    intro q f j hq
    rcases h'.entry q f j hq with ⟨hq, heq⟩ | hnew
    · rw [heq]
      exact h.entry q f j hq
    · exact Or.inr hnew
  bytes := by
    intro x htables hrecords
    rw [h'.bytes x htables (fun hx => hrecords ((h.records x).mp hx))]
    exact h.bytes x (fun f hf => htables f (h'.isTable hf)) hrecords

end Extends

/-- A store that changes no translation is quiet. -/
theorem Quiet.of_store {s s' : Vmm} (hroot : s'.root = s.root) (hpml4 : s'.pml4 = s.pml4)
    (htlb : s'.tlb = s.accesses.tlb)
    (htranslate : ∀ page, s'.translate page = s.translate page) : Quiet s s' where
  root := hroot
  pml4 := hpml4
  translate := htranslate
  cached := fun _ hx => htlb ▸ List.mem_append_right _ hx
  tlb := fun _ hx => mem_accesses (htlb ▸ hx)

theorem palloc_mem_out (s : Vmm) {x : Ptr} (h : ¬ s.Records x) :
    s.palloc.2.pmm.mem x = s.pmm.mem x := by
  have hpalloc : s.palloc.2.pmm = (Asnu.palloc s.pmm).2 := rfl
  rw [hpalloc, palloc_eq]
  cases hfree : s.pmm.firstFree with
  | none => rfl
  | some j =>
      have hj := (Pmm.firstFree_eq_some.mp hfree).1
      exact Bitmap.set_out _ (fun heq => h ⟨j, hj, heq⟩)

namespace Grants

variable {s : Vmm} {g : Frame} (h : s.Grants g)
include h

theorem rd_palloc {f : Frame} (hf : s.IsTable f) (i : Index) :
    rd s.palloc.2.pmm.mem f i = rd s.pmm.mem f i :=
  rd_congr (fun x hx => s.palloc_mem_out (h.records f hf x hx)) i

theorem node_palloc (q : List Index) : s.palloc.2.node q = s.node q :=
  Radix.node_congr (fun p _ i ht _ => h.rd_palloc ⟨p, ht⟩ i)

theorem entries_palloc (page : Page) : s.palloc.2.entries page = s.entries page :=
  Radix.walk_congr (fun p _ i ht _ => h.rd_palloc ⟨p, ht⟩ i)

theorem quiet_palloc : Quiet s s.palloc.2 :=
  Quiet.of_store rfl rfl rfl
    (fun page => congrArg (Translation.ofEntries page) (h.entries_palloc page))

end Grants

/-- The state after `g` is zeroed and linked under entry `i` of `t`. -/
def linked (s : Vmm) (t : Frame) (i : Index) (g : Frame) : Vmm :=
  (s.palloc.2.memset (tablePtr g) 0#32 4096#64).store (tablePtr t) (i.setWidth 64)
    (Entry.linking g)

theorem linked_mem (s : Vmm) (t : Frame) (i : Index) (g : Frame) :
    (s.linked t i g).pmm.mem =
      (s.palloc.2.pmm.mem.fill (tablePtr g) 4096 0#8).store64 (entryPtr t i)
        (Entry.linking g) := by
  have hzero := memset_eq_fill s.palloc.2.pmm.mem (tablePtr g) 0#32 4096#64
  rw [linked, store, withMem_mem, memset, withMem_mem, hzero]
  rfl

/-- The allocator of that state, when `g` is given for bit `k`. -/
def linkedPmm (p : Pmm) (k : Nat) (t : Frame) (i : Index) (g : Frame) : Pmm :=
  p.withMem (((p.mark k).mem.fill (tablePtr g) 4096 0#8).store64 (entryPtr t i)
    (Entry.linking g))

theorem rd_linked (s : Vmm) (t : Frame) (i : Index) (g : Frame) :
    rd (s.linked t i g).pmm.mem =
      Radix.link (rd s.palloc.2.pmm.mem) t i g (Entry.linking g) 0#64 := by
  rw [linked_mem, rd_store64, rd_fill]
  rfl

@[simp] theorem linked_root (s : Vmm) (t : Frame) (i : Index) (g : Frame) :
    (s.linked t i g).root = s.root := by
  rw [linked, store, withMem_root, memset, withMem_root, palloc_root]

theorem linked_pml4 (s : Vmm) (t : Frame) (i : Index) (g : Frame) :
    (s.linked t i g).pml4 = s.pml4 := by
  rw [linked, store, withMem_pml4, memset, withMem_pml4, palloc_pml4]

theorem linked_file (s : Vmm) (t : Frame) (i : Index) (g : Frame) :
    (s.linked t i g).pmm.file = s.pmm.file := by
  rw [linked, store, withMem_file, memset, withMem_file, palloc_file]

theorem pmm_linked {s : Vmm} {k : Nat} (h : s.pmm.firstFree = some k) (t : Frame) (i : Index)
    (g : Frame) : (s.linked t i g).pmm = linkedPmm s.pmm k t i g := by
  have hafter : s.palloc.2.pmm = (Asnu.palloc s.pmm).2 := rfl
  have hmem := linked_mem s t i g
  rw [hafter, palloc_of_firstFree h] at hmem
  exact Pmm.eq_withMem hmem (linked_file s t i g)

theorem linked_taken (s : Vmm) (t : Frame) (i : Index) (g : Frame) :
    (s.linked t i g).taken = s.palloc.1 :: s.taken := by
  rw [linked, store, withMem_taken, memset, withMem_taken, palloc_taken]

theorem ofEntries_not_present (page : Page) (es : List Entry) {e : Entry}
    (h : ¬ Entry.present e) : Translation.ofEntries page (es ++ [e]) = none := by
  simp [Translation.ofEntries, h]

/-- A walk that ends in an entry that is not present gives no translation. -/
theorem ofEntries_absent {tables : Frame → Index → Entry} {root t : Frame} {page : Page}
    {p r : List Index} {i : Index} (hpath : path page = p ++ i :: r)
    (ht : Radix.node Entry.next tables 0 root p = some t)
    (habsent : ¬ Entry.present (tables t i)) :
    Translation.ofEntries page (Radix.walk Entry.next tables 0 root (path page)) = none := by
  have hwalk : Radix.walk Entry.next tables 0 root (path page) =
      Radix.walk Entry.next tables 0 root p ++ [tables t i] := by
    rw [hpath, Radix.walk_append _ _ 0 _ p _ ht, Radix.walk, Entry.next_of_not_present habsent]
  rw [hwalk]
  exact ofEntries_not_present page _ habsent

/-- A page under the entry had no translation and has none in the empty table;
no other page sees the link. -/
theorem ofEntries_link {tables : Frame → Index → Entry} {root t g : Frame} {p : List Index}
    {i : Index} (hlinks : Radix.Links Entry.next tables root p t i g (Entry.linking g) 0#64)
    (hd : p.length < 3) (habsent : ¬ Entry.present (tables t i)) (page : Page) :
    Translation.ofEntries page (Radix.walk Entry.next
        (Radix.link tables t i g (Entry.linking g) 0#64) 0 root (path page)) =
      Translation.ofEntries page (Radix.walk Entry.next tables 0 root (path page)) := by
  by_cases hq : p ++ [i] <+: path page
  · obtain ⟨r, hr⟩ := hq
    rw [List.append_assoc, List.singleton_append] at hr
    cases r with
    | nil =>
        have hlen := congrArg List.length hr
        simp only [List.length_append, List.length_cons, List.length_nil, path] at hlen
        omega
    | cons j r =>
        obtain ⟨_, hafter⟩ := hlinks.walk_link_through j r
        rw [hr] at hafter
        rw [hafter, ofEntries_absent hr.symm hlinks.parent habsent, ← List.singleton_append,
          ← List.append_assoc]
        exact ofEntries_not_present page _ (by decide)
  · rw [hlinks.walk_link hq]

section Linked

variable {s : Vmm} {p : List Index} {t : Frame} {i : Index} {g : Frame}

theorem links (hs : s.Tree) (hg : s.Grants g) (ht : s.node p = some t)
    (hd : p.length < 3) (habsent : ¬ Entry.present (rd s.pmm.mem t i)) :
    Radix.Links Entry.next (rd s.palloc.2.pmm.mem) s.root p t i g (Entry.linking g)
      0#64 where
  unshared := hs.unshared.of_node_eq hg.node_palloc
  parent := (hg.node_palloc p).trans ht
  fresh := fun q hq => hg.fresh ⟨q, (hg.node_palloc q).symm.trans hq⟩
  absent := by
    rw [hg.rd_palloc ⟨p, ht⟩]
    exact Entry.next_of_not_present habsent
  leads := Entry.next_linking hd g
  empty := Entry.next_zero

theorem node_linked (hs : s.Tree) (hg : s.Grants g) (ht : s.node p = some t)
    (hd : p.length < 3) (habsent : ¬ Entry.present (rd s.pmm.mem t i))
    (q : List Index) (f : Frame) :
    (s.linked t i g).node q = some f ↔
      s.node q = some f ∨ (q = p ++ [i] ∧ f = g) := by
  have hlinks := links hs hg ht hd habsent
  rw [node, rd_linked, linked_root, hlinks.node_link q f, ← hg.node_palloc q]
  rfl

theorem translate_linked (hs : s.Tree) (hg : s.Grants g) (ht : s.node p = some t)
    (hd : p.length < 3) (habsent : ¬ Entry.present (rd s.pmm.mem t i)) (page : Page) :
    (s.linked t i g).translate page = s.translate page := by
  have habsent' : ¬ Entry.present (rd s.palloc.2.pmm.mem t i) := by
    rw [hg.rd_palloc ⟨p, ht⟩]
    exact habsent
  have hwalk : (s.linked t i g).entries page =
      Radix.walk Entry.next (Radix.link (rd s.palloc.2.pmm.mem) t i g
        (Entry.linking g) 0#64) 0 s.root (path page) := by
    rw [entries, Asnu.entries, rd_linked, linked_root]
  change Translation.ofEntries page ((s.linked t i g).entries page) =
    Translation.ofEntries page (s.entries page)
  rw [hwalk, ofEntries_link (links hs hg ht hd habsent) hd habsent', ← hg.entries_palloc page]
  rfl

theorem quiet_linked (hs : s.Tree) (hg : s.Grants g) (ht : s.node p = some t)
    (hd : p.length < 3) (habsent : ¬ Entry.present (rd s.pmm.mem t i)) :
    Quiet s (s.linked t i g) := by
  have hzeroed : ∀ page, (s.palloc.2.memset (tablePtr g) 0#32 4096#64).translate page =
      s.palloc.2.translate page := by
    intro page
    have hrd : rd (Asnu.memset s.palloc.2.pmm.mem (tablePtr g) 0#32 4096#64) =
        Radix.blank (rd s.palloc.2.pmm.mem) g 0#64 := by
      rw [memset_eq_fill]
      exact rd_fill _ g
    rw [translate, Asnu.translate, Asnu.entries, memset, withMem_mem, hrd, withMem_root,
      Radix.walk_blank (fun q hq => hg.fresh ⟨q, (hg.node_palloc q).symm.trans hq⟩)]
    rfl
  have hset : Quiet s.palloc.2 (s.palloc.2.memset (tablePtr g) 0#32 4096#64) :=
    Quiet.of_store (withMem_root _ _) (withMem_pml4 _ _) (withMem_tlb _ _) hzeroed
  have hlink : Quiet (s.palloc.2.memset (tablePtr g) 0#32 4096#64) (s.linked t i g) :=
    Quiet.of_store (withMem_root _ _) (withMem_pml4 _ _) (withMem_tlb _ _)
      (fun page => (translate_linked hs hg ht hd habsent page).trans
        ((hg.quiet_palloc.translate page).symm.trans (hzeroed page).symm))
  exact hg.quiet_palloc.trans (hset.trans hlink)

theorem tree_linked (hs : s.Tree) (hg : s.Grants g) (ht : s.node p = some t)
    (hd : p.length < 3) (habsent : ¬ Entry.present (rd s.pmm.mem t i)) :
    (s.linked t i g).Tree where
  pml4 := by
    rw [linked_root, linked_pml4, hs.pml4]
  unshared := by
    rw [rd_linked, linked_root]
    exact (links hs hg ht hd habsent).link_unshared

/-- Of the old tables only the linking entry is written. -/
theorem rd_linked_old (hg : s.Grants g) {q : List Index} {f : Frame} {j : Index}
    (hf : s.node q = some f) (hself : ¬ (f = t ∧ j = i)) :
    rd (s.linked t i g).pmm.mem f j = rd s.pmm.mem f j := by
  have hne : f ≠ g := fun heq => hg.fresh ⟨q, heq ▸ hf⟩
  rw [rd_linked, ← hg.rd_palloc ⟨q, hf⟩ j, Radix.link, Radix.setEntry, if_neg hself,
    Radix.blank, if_neg hne]

theorem extends_linked (hs : s.Tree) (hg : s.Grants g) (ht : s.node p = some t)
    (hd : p.length < 3) (habsent : ¬ Entry.present (rd s.pmm.mem t i)) :
    Extends [tablePtr g] s (s.linked t i g) where
  toQuiet := quiet_linked hs hg ht hd habsent
  tree := tree_linked hs hg ht hd habsent
  file := linked_file s t i g
  taken := by
    have hptr : s.palloc.1 = tablePtr g := hg.pointer
    rw [linked_taken, hptr, List.singleton_append]
  keeps := fun q f hq => (node_linked hs hg ht hd habsent q f).mpr (Or.inl hq)
  news := by
    intro q f hq
    rcases (node_linked hs hg ht hd habsent q f).mp hq with hold | ⟨_, rfl⟩
    · exact Or.inl hold
    · exact Or.inr (List.mem_singleton_self _)
  kept := by
    intro q f j hq hpresent
    have hself : ¬ (f = t ∧ j = i) := by
      rintro ⟨rfl, rfl⟩
      exact habsent hpresent
    exact rd_linked_old hg hq hself
  entry := by
    intro q f j hq
    have hlinks := links hs hg ht hd habsent
    rw [rd_linked]
    rcases (node_linked hs hg ht hd habsent q f).mp hq with hold | ⟨_, rfl⟩
    · by_cases hself : f = t ∧ j = i
      · exact Or.inr (Or.inr ⟨g, if_pos hself⟩)
      · rw [← rd_linked]
        exact Or.inl ⟨hold, rd_linked_old hg hold hself⟩
    · exact Or.inr (Or.inl (hlinks.link_new j))
  bytes := by
    intro x htables hrecords
    have htable : (s.linked t i g).IsTable t :=
      ⟨p, (node_linked hs hg ht hd habsent p t).mpr (Or.inl ht)⟩
    have hnew : (s.linked t i g).IsTable g :=
      ⟨p ++ [i], (node_linked hs hg ht hd habsent _ g).mpr (Or.inr ⟨rfl, rfl⟩)⟩
    rw [linked_mem,
      Memory.store64_out _ _ (fun hx => htables t htable (inRange_table hx)),
      Memory.fill_out _ _ (htables g hnew)]
    exact s.palloc_mem_out hrecords

end Linked

theorem load_eq_rd (s : Vmm) (t : Frame) (i : Index) :
    s.load (tablePtr t) (i.setWidth 64) = rd s.pmm.mem t i := rfl

theorem nextTable_present {s : Vmm} {table p : Ptr} {i : BitVec 64}
    (hne : s.load table i &&& pagePresent ≠ 0#64)
    (hp : pa2vaU64 (s.load table i &&& ~~~0xFFF#64) = p) :
    nextTable s table i = (p, s) := by
  rw [nextTable, if_neg hne, hp]

theorem nextTable_absent {s : Vmm} {t g : Frame} {i : Index}
    (hzero : s.load (tablePtr t) (i.setWidth 64) &&& pagePresent = 0#64)
    (hptr : s.palloc.1 = tablePtr g) :
    nextTable s (tablePtr t) (i.setWidth 64) = (tablePtr g, s.linked t i g) := by
  rw [linked, ← Entry.va2paU64_tablePtr g, ← hptr]
  exact if_pos hzero

/-- The allocator answers when entry `i` of the table has to be made. -/
def Serves (s : Vmm) (table : Ptr) (i : BitVec 64) : Prop :=
  s.load table i &&& pagePresent = 0#64 → ∃ f, s.Grants f

/-- One level of `mmap`: the pointer is the table that the hardware goes to
from the entry. -/
theorem nextTable_spec {s : Vmm} (hs : s.Tree) {p : List Index} {t : Frame} {i : Index}
    (ht : s.node p = some t) (hd : p.length < 3)
    (hplain : Entry.present (rd s.pmm.mem t i) → Entry.Plain p.length (rd s.pmm.mem t i))
    (hserves : s.Serves (tablePtr t) (i.setWidth 64)) :
    ∃ g fresh, (nextTable s (tablePtr t) (i.setWidth 64)).1 = tablePtr g ∧
      Extends fresh s (nextTable s (tablePtr t) (i.setWidth 64)).2 ∧
      (nextTable s (tablePtr t) (i.setWidth 64)).2.node (p ++ [i]) = some g := by
  by_cases hpresent : Entry.present (rd s.pmm.mem t i)
  · have hne := (Entry.present_iff _).mp hpresent
    have hplain := hplain hpresent
    have hnext : nextTable s (tablePtr t) (i.setWidth 64) =
        (tablePtr (Entry.frame (rd s.pmm.mem t i)), s) :=
      nextTable_present hne (Entry.pointer_eq hplain.2)
    rw [hnext]
    exact ⟨_, [], rfl, Extends.refl hs, node_of_plain ht hd hpresent hplain⟩
  · have hzero : rd s.pmm.mem t i &&& pagePresent = 0#64 := by
      by_contra hne
      exact hpresent ((Entry.present_iff _).mpr hne)
    obtain ⟨g, hg⟩ := hserves hzero
    rw [nextTable_absent hzero hg.pointer]
    exact ⟨g, [tablePtr g], rfl, extends_linked hs hg ht hd hpresent,
      (node_linked hs hg ht hd hpresent _ g).mpr (Or.inr ⟨rfl, rfl⟩)⟩

end Vmm

end Asnu
