import Asnu.Vmm.Init
import Asnu.Vmm.PageMap

/-!
What a request does to everything it does not name: the translations of other
pages and the bytes outside the tables. The code takes every present entry for
a pointer to a table, so this depends on the entries it follows.
-/

namespace Asnu

open Lib

namespace Vmm

/-- From `s` to `s'` no page but `page` got another translation, and no byte
was written outside the tables of `s` and the frames just taken from `palloc`.
What `palloc` notes in its own bitmap does not count. -/
structure LeavesOthers (s s' : Vmm) (page : Page) : Prop where
  translate : ∀ other, other ≠ page → s'.translate other = s.translate other
  bytes : ∃ fresh, s'.taken = fresh ++ s.taken ∧
    ∀ x, (∀ f, s.IsTable f → ¬ InRange (tablePtr f) 4096 x) →
      (∀ p ∈ fresh, ¬ InRange p 4096 x) → ¬ s.Records x → s'.pmm.mem x = s.pmm.mem x

theorem leavesOthers_refl (s : Vmm) (page : Page) : s.LeavesOthers s page :=
  ⟨fun _ _ => rfl, [], rfl, fun _ _ _ _ => rfl⟩

theorem leavesOthers_mmap {s : Vmm} (hs : s.Tree) {va : Ptr}
    (hplain : s.PlainPath (pageOf va)) (hsupplied : s.Supplied va) (pa : Ptr)
    (flags : BitVec 64) : s.LeavesOthers (Asnu.mmap s va pa flags) (pageOf va) := by
  obtain ⟨fresh, m, pt, hext, hpt, heq⟩ := mmap_spec hs hplain hsupplied pa flags
  rw [heq]
  refine ⟨fun other hne => ?_, fresh, ?_, fun x htables hfresh hrecords => ?_⟩
  · rw [translate_rewriteLeaf_other hext.tree hpt hne, hext.translate other]
  · rw [rewriteLeaf_taken, hext.taken]
  · have hnew : ∀ f, m.IsTable f → ¬ InRange (tablePtr f) 4096 x := by
      rintro f ⟨q, hq⟩
      rcases hext.news q f hq with hold | hmem
      · exact htables f ⟨q, hold⟩
      · exact hfresh _ hmem
    have hlast := hnew pt ⟨_, hpt⟩
    rw [rewriteLeaf, storeLeaf_out _ _ _ hlast, storeLeaf_out _ _ _ hlast]
    exact hext.bytes x hnew hrecords

theorem leavesOthers_unmap {s : Vmm} (hs : s.Tree) {va : Ptr}
    (hplain : s.PlainPath (pageOf va)) :
    s.LeavesOthers (Asnu.unmap s va) (pageOf va) := by
  rcases unmap_spec hs hplain with ⟨heq, _⟩ | ⟨pt, hpt, heq⟩
  · rw [heq]
    exact s.leavesOthers_refl _
  · rw [heq]
    refine ⟨fun other hne => ?_, [], ?_, fun x htables _ _ => ?_⟩
    · rw [translate_invlpg, translate_storeLeaf hs hpt hne]
    · rw [invlpg_taken, storeLeaf_taken, List.nil_append]
    · rw [invlpg_pmm]
      exact storeLeaf_out _ _ _ (htables pt ⟨_, hpt⟩)

/-- The code goes on through an entry without bits above 51 whether it leads to
a table or maps a large page. -/
theorem unmap_follows {s : Vmm} {t : Frame} {i : Index}
    (hpresent : Entry.present (rd s.pmm.mem t i)) (hbits : (rd s.pmm.mem t i).toNat < 2 ^ 52) :
    s.load (tablePtr t) (i.setWidth 64) &&& pagePresent ≠ 0#64 ∧
      pa2vaU64 (s.load (tablePtr t) (i.setWidth 64) &&& ~~~0xFFF#64) =
        tablePtr (Entry.frame (rd s.pmm.mem t i)) :=
  ⟨(Entry.present_iff _).mp hpresent, Entry.pointer_eq hbits⟩

/-- When the page directory has an entry for a page, `unmap` clears a word in
the frame that the entry names. In a 2 MiB page this is a word of the data. -/
theorem unmap_through {s : Vmm} (hs : s.Tree) {va : Ptr} {e : Entry}
    (hupper : ∀ k < 2, ∀ e ∈ (s.entries (pageOf va))[k]?, Entry.present e →
      Entry.Plain k e)
    (he : (s.entries (pageOf va))[2]? = some e) (hpresent : Entry.present e)
    (hbits : e.toNat < 2 ^ 52) :
    unmap s va = (s.storeLeaf (Entry.frame e) (pageOf va) 0#64).invlpg va := by
  obtain ⟨p, pd, i, r, hpath, hlen, hpd, rfl⟩ := Radix.walk_getElem?_inv _ _ he
  obtain ⟨j0, j1, rfl⟩ := List.length_eq_two.mp hlen
  have hp0 := present_of_node (p := []) (q := [j1]) hpd rfl
  have hplain0 := hupper 0 (by decide) _ (entries_getElem? (p := []) hpath rfl) hp0
  have ht1 : s.node [j0] = some (Entry.frame (rd s.pmm.mem s.root j0)) :=
    node_of_plain (p := []) rfl (by decide) hp0 hplain0
  have hp1 := present_of_node (p := [j0]) (q := []) hpd ht1
  have hplain1 := hupper 1 (by decide) _ (entries_getElem? (p := [j0]) hpath ht1) hp1
  have ht2 : s.node [j0, j1] =
      some (Entry.frame (rd s.pmm.mem (Entry.frame (rd s.pmm.mem s.root j0)) j1)) :=
    node_of_plain (p := [j0]) ht1 (by simp) hp1 hplain1
  obtain rfl := Option.some.inj (ht2.symm.trans hpd)
  simp only [path, List.cons_append, List.nil_append, List.cons.injEq] at hpath
  obtain ⟨h39, h30, h21, h12⟩ := indices_eq va
  rw [hpath.1] at h39
  rw [hpath.2.1] at h30
  rw [hpath.2.2.1] at h21
  obtain ⟨hne0, hptr0⟩ := unmap_follows hp0 hplain0.2
  obtain ⟨hne1, hptr1⟩ := unmap_follows hp1 hplain1.2
  obtain ⟨hne2, hptr2⟩ := unmap_follows hpresent hbits
  simp only [unmap, h39, h30, h21, h12, hs.pml4]
  rw [if_neg hne0, hptr0, if_neg hne1, hptr1, if_neg hne2, hptr2, storeLeaf]

/-- So the word, when it is not zero and no part of the tables, is lost. -/
theorem not_leavesOthers_large {s : Vmm} (hs : s.Tree) {va : Ptr} {e : Entry}
    (hupper : ∀ k < 2, ∀ e ∈ (s.entries (pageOf va))[k]?, Entry.present e →
      Entry.Plain k e)
    (he : (s.entries (pageOf va))[2]? = some e) (hpresent : Entry.present e)
    (hbits : e.toNat < 2 ^ 52) (hdata : ¬ s.IsTable (Entry.frame e)) {x : Ptr}
    (hx : InRange (entryPtr (Entry.frame e) (lastIndex (pageOf va))) 8 x)
    (hword : s.pmm.mem x ≠ 0#8) (hrecords : ¬ s.Records x) :
    ¬ s.LeavesOthers (s.exec (.unmap va)) (pageOf va) := by
  rintro ⟨_, fresh, htaken, hbytes⟩
  have hunmap : s.exec (.unmap va) =
      (s.storeLeaf (Entry.frame e) (pageOf va) 0#64).invlpg va :=
    unmap_through hs hupper he hpresent hbits
  rw [hunmap, invlpg_taken, storeLeaf_taken] at htaken
  have hfresh : fresh = [] := List.self_eq_append_left.mp htaken
  have hkept := hbytes x
    (fun f hf => tables_apart (fun heq : Entry.frame e = f => hdata (heq ▸ hf))
      (inRange_table hx))
    (by simp [hfresh]) hrecords
  have hzero : (s.pmm.mem.store64 (entryPtr (Entry.frame e) (lastIndex (pageOf va)))
      0#64) x = 0#8 := by
    rw [Memory.store64, if_pos hx, BitVec.toNat_ofNat, Nat.zero_mod, Nat.zero_div]
  rw [hunmap, invlpg_pmm, storeLeaf_mem, hzero] at hkept
  exact hword hkept.symm

end Vmm

/-- A request leaves everything else alone when the entries that it follows for
its page lead the hardware to a table as well, and `palloc` answers it. -/
theorem request_leaves_others (s : Vmm) (htree : s.Tree) (r : Vmm.Request)
    (hplain : s.PlainPath r.page) (hanswered : s.Answered r) :
    s.LeavesOthers (s.exec r) r.page := by
  cases r with
  | mmap va pa flags => exact Vmm.leavesOthers_mmap htree hplain hanswered pa flags
  | unmap va => exact Vmm.leavesOthers_unmap htree hplain

theorem request_leaves_others_sample :
    Sample.vmm.LeavesOthers (Sample.vmm.exec (.mmap 0x200000#64 0x30000#64 3#64)) 0x200 :=
  request_leaves_others Sample.vmm Sample.tree_vmm (.mmap 0x200000#64 0x30000#64 3#64)
    (Sample.clean_vmm.plainPath _) Sample.supplied_vmm

namespace Sample

/-- The memory with a 2 MiB page at `0x600000`, and data at its start. -/
def largePage : Memory :=
  (tables.store64 (entryPtr 0x200 0) 0xDEAD#64).store64 (entryPtr 3 3) 0x200083#64

theorem node_data (q : List Index) :
    Radix.node Entry.next (rd (tables.store64 (entryPtr 0x200 0) 0xDEAD#64)) 0 1 q =
      Radix.node Entry.next (rd tables) 0 1 q := by
  rw [rd_store64]
  refine Radix.node_congr (fun p t i ht _ => if_neg ?_)
  rintro ⟨rfl, _⟩
  exact absurd (node_tables p 0x200 ht) (by simp)

theorem unshared_data : Radix.Unshared Entry.next
    (rd (tables.store64 (entryPtr 0x200 0) 0xDEAD#64)) 1 :=
  unshared_tables.of_node_eq node_data

/-- The entry of the large page leads to no table. -/
theorem node_largePage (q : List Index) :
    Radix.node Entry.next (rd largePage) 0 1 q = Radix.node Entry.next (rd tables) 0 1 q := by
  rw [largePage, rd_store64, ← node_data q]
  exact Radix.node_setEntry_of_next_eq unshared_data (p := [0, 0]) (by decide +kernel)
    (by decide +kernel) (by decide +kernel) q

theorem tree_largePage : (cpuOn largePage).Tree where
  pml4 := by decide
  unshared := unshared_tables.of_node_eq node_largePage

theorem boots_largePage : (cpuOn largePage).Boots 8 where
  unshared := tree_largePage.unshared
  cr3 := by decide
  grants := grants_of_tables rfl (by decide +kernel) (fun _ ⟨q, hq⟩ =>
    frame_of_node ((node_largePage q).symm.trans hq))

theorem not_isTable_data : ¬ (vmmInit (cpuOn largePage)).IsTable 0x200 := by
  intro hdata
  rcases boots_largePage.isTable_vmmInit hdata with heq | ⟨q, hq⟩
  · exact absurd heq (by decide)
  · exact absurd (frame_of_node ((node_largePage q).symm.trans hq)) (by decide)

theorem entries_largePage : (vmmInit (cpuOn largePage)).entries (pageOf 0x600000#64) =
    [Entry.linking 2, Entry.linking 3, 0x200083#64] := by
  have hpath : path (pageOf 0x600000#64) = [0, 0, 3, 0] := by decide
  have h1 : rd largePage 1 0 = Entry.linking 2 := by decide +kernel
  have h2 : rd largePage 2 0 = Entry.linking 3 := by decide +kernel
  have h3 : rd largePage 3 3 = 0x200083#64 := by decide +kernel
  have hstop : Entry.next 2 0x200083#64 = none := by decide
  rw [boots_largePage.entries_vmmInit]
  change Radix.walk Entry.next (rd largePage) 0 1 (path (pageOf 0x600000#64)) = _
  rw [hpath]
  simp only [Radix.walk, h1, h2, h3, hstop, Entry.next_linking (show 0 < 3 by decide),
    Entry.next_linking (show 0 + 1 < 3 by decide)]

/-- The word is not in the bitmap, which is one byte somewhere else. -/
theorem not_records_data {s : Vmm} (hfile : s.pmm.file = file) :
    ¬ s.Records (entryPtr 0x200 0) :=
  fun hrecords => absurd (eq_of_records hrecords hfile) (by decide)

theorem data_vmmInit :
    (vmmInit (cpuOn largePage)).pmm.mem (entryPtr 0x200 0) = largePage (entryPtr 0x200 0) :=
  boots_largePage.vmmInit_out (by decide) (not_records_data rfl)

end Sample

/-- After `vmm_init` on such tables, unmapping the first page of the 2 MiB page
clears the word at its start. -/
theorem unmap_clears_data :
    ¬ ∀ (boot : Vmm) (f : Frame), boot.Boots f → ∀ r : Vmm.Request,
      (vmmInit boot).Answered r →
        (vmmInit boot).LeavesOthers ((vmmInit boot).exec r) r.page := by
  intro hclaim
  have hleaves := hclaim _ _ Sample.boots_largePage (.unmap 0x600000#64) trivial
  have hword : Sample.largePage (entryPtr 0x200 0) ≠ 0#8 := by decide +kernel
  rw [← Sample.data_vmmInit] at hword
  refine Vmm.not_leavesOthers_large Sample.boots_largePage.tree_vmmInit (e := 0x200083#64)
    ?_ ?_ (by decide) (by decide) Sample.not_isTable_data (x := entryPtr 0x200 0)
    (by decide +kernel) hword (Sample.not_records_data rfl) hleaves
  · rw [Sample.entries_largePage]
    rintro (_ | _ | k) hk e he _
    · obtain rfl := Option.some.inj he
      exact Entry.linking_plain 0 2
    · obtain rfl := Option.some.inj he
      exact Entry.linking_plain 1 3
    · omega
  · rw [Sample.entries_largePage]
    rfl

end Asnu
