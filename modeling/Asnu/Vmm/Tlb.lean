import Asnu.Vmm.Others

/-!
The cached translations against those of the tables. `unmap` drops what may be
cached for its page; `mmap` does not, and may put another translation in the
place of a cached one.
-/

namespace Asnu

open Lib

namespace Vmm

/-- Every cached translation is the one the tables give. -/
def Consistent (s : Vmm) : Prop := ∀ x ∈ s.tlb, s.translate x.1 = some x.2

/-- The translation that `mmap` gives to a page that has its tables. -/
def remapped (s : Vmm) (va pa : Ptr) (flags : BitVec 64) : Option Translation :=
  Translation.ofEntries (pageOf va) ((s.entries (pageOf va)).take 3 ++ [leafEntry pa flags])

/-- The page has no translation, or the request does not change it. -/
def KeepsTranslation (s : Vmm) : Request → Prop
  | .mmap va pa flags =>
      s.translate (pageOf va) = none ∨
        s.translate (pageOf va) = s.remapped va pa flags
  | .unmap _ => True

/-- Requests, and accesses to pages between them. -/
inductive Event where
  | request (r : Request)
  | access (page : Page)

def react (s : Vmm) : Event → Vmm
  | .request r => s.exec r
  | .access page => s.access page

/-- Requests on plain paths that `palloc` answers and `guard` allows. -/
def StepIf (guard : Vmm → Request → Prop) (s : Vmm) (ev : Event) (s' : Vmm) : Prop :=
  (∀ r, ev = .request r → s.PlainPath r.page ∧ s.Answered r ∧ guard s r) ∧
    s' = s.react ev

section Access

variable (s : Vmm) (page : Page)

theorem translate_access (other : Page) :
    (s.access page).translate other = s.translate other := rfl

theorem remapped_access (va pa : Ptr) (flags : BitVec 64) :
    (s.access page).remapped va pa flags = s.remapped va pa flags := rfl

theorem tree_access {s : Vmm} (hs : s.Tree) : (s.access page).Tree :=
  ⟨hs.pml4, hs.unshared⟩

theorem plainPath_access {s : Vmm} {other : Page} (h : s.PlainPath other) :
    (s.access page).PlainPath other := h

theorem mem_access {s : Vmm} {page : Page} {t : Translation}
    (h : s.translate page = some t) : (page, t) ∈ (s.access page).tlb :=
  List.mem_append_left _ (List.mem_filterMap.mpr ⟨page, List.mem_singleton_self _, by simp [h]⟩)

end Access

theorem consistent_access {s : Vmm} (h : s.Consistent) (page : Page) :
    (s.access page).Consistent := by
  intro x hx
  rcases List.mem_append.mp hx with hnew | hold
  · exact mem_cached hnew
  · exact h x hold

/-- With its tables there, a page is translated through the same upper entries
before and after `mmap`. -/
theorem walk_upper_extends {fresh : List Ptr} {s m : Vmm} (hext : Extends fresh s m)
    {page : Page} {pt : Frame} (hpt : s.node (upper page) = some pt) :
    Radix.walk Entry.next (rd m.pmm.mem) 0 m.root (upper page) =
      (s.entries page).take 3 := by
  have hlen : (Radix.walk Entry.next (rd s.pmm.mem) 0 s.root (upper page)).length = 3 :=
    Radix.length_walk _ _ 0 _ _ hpt
  have hsame : Radix.walk Entry.next (rd m.pmm.mem) 0 m.root (upper page) =
      Radix.walk Entry.next (rd s.pmm.mem) 0 s.root (upper page) := by
    rw [hext.root]
    refine Radix.walk_congr (fun p t i ht hpath => ?_)
    obtain ⟨r, hr⟩ := hpath
    rw [List.append_assoc, List.singleton_append] at hr
    exact hext.kept p t i ht (present_of_node (hr ▸ hpt) ht)
  rw [hsame, entries, Asnu.entries, path_eq, Radix.walk_append _ _ 0 _ _ _ hpt,
    List.take_append_of_le_length (by omega), ← hlen, List.take_length]

/-- What `mmap` makes of a translated page. -/
theorem translate_mmap {s : Vmm} (hs : s.Tree) {va : Ptr}
    (hplain : s.PlainPath (pageOf va)) (hsupplied : s.Supplied va)
    (htr : s.translate (pageOf va) ≠ none) (pa : Ptr) (flags : BitVec 64) :
    (Asnu.mmap s va pa flags).translate (pageOf va) = s.remapped va pa flags := by
  obtain ⟨pt', hpt'⟩ := node_upper hplain htr
  obtain ⟨fresh, m, pt, hext, hpt, heq⟩ := mmap_spec hs hplain hsupplied pa flags
  rw [heq, translate_rewriteLeaf hext.tree hpt, walk_upper_extends hext hpt', remapped]

theorem consistent_mmap {s : Vmm} (hs : s.Tree) (h : s.Consistent) {va pa : Ptr}
    {flags : BitVec 64} (hplain : s.PlainPath (pageOf va)) (hsupplied : s.Supplied va)
    (hkeeps : s.KeepsTranslation (.mmap va pa flags)) :
    (Asnu.mmap s va pa flags).Consistent := by
  intro x hx
  obtain ⟨fresh, m, pt, hext, hpt, heq⟩ := mmap_spec hs hplain hsupplied pa flags
  have hbefore : s.translate x.1 = some x.2 := by
    rw [heq] at hx
    rcases tlb_rewriteLeaf hext.tree hpt hx with hmem | htr
    · rcases hext.tlb x hmem with hold | htr
      · exact h x hold
      · exact htr
    · exact (hext.translate x.1).symm.trans htr
  by_cases hpage : x.1 = pageOf va
  · have htr : s.translate (pageOf va) ≠ none := by
      rw [← hpage, hbefore]
      simp
    rw [hpage, translate_mmap hs hplain hsupplied htr, ← hbefore, hpage]
    exact (hkeeps.resolve_left htr).symm
  · rw [heq, translate_rewriteLeaf_other hext.tree hpt hpage, hext.translate, hbefore]

theorem consistent_unmap {s : Vmm} (hs : s.Tree) (h : s.Consistent) {va : Ptr}
    (hplain : s.PlainPath (pageOf va)) : (Asnu.unmap s va).Consistent := by
  rcases unmap_spec hs hplain with ⟨heq, _⟩ | ⟨pt, hpt, heq⟩
  · rw [heq]
    exact h
  · rw [heq]
    intro x hx
    obtain ⟨hmem, hpage⟩ := List.mem_filter.mp hx
    have hother : x.1 ≠ pageOf va := of_decide_eq_true hpage
    rw [translate_invlpg, translate_storeLeaf hs hpt hother]
    rcases mem_accesses hmem with hmem | htr
    · rw [storeLeaf_tlb] at hmem
      rcases mem_accesses hmem with hold | htr
      · exact h x hold
      · exact htr
    · rwa [translate_storeLeaf hs hpt hother] at htr

/-- A cached translation that `mmap` changes is still cached afterwards. -/
theorem stale_mmap {s : Vmm} (hs : s.Tree) {va pa : Ptr} {flags : BitVec 64}
    (hplain : s.PlainPath (pageOf va)) (hsupplied : s.Supplied va) {t : Translation}
    (hcached : (pageOf va, t) ∈ s.tlb) (htr : s.translate (pageOf va) = some t)
    (hchanged : s.remapped va pa flags ≠ some t) :
    ¬ (Asnu.mmap s va pa flags).Consistent := by
  intro hconsistent
  have hne : s.translate (pageOf va) ≠ none := by
    rw [htr]
    exact Option.some_ne_none t
  have hafter := translate_mmap hs hplain hsupplied hne pa flags
  obtain ⟨fresh, m, pt, hext, _, heq⟩ := mmap_spec hs hplain hsupplied pa flags
  have hmem : (pageOf va, t) ∈ (Asnu.mmap s va pa flags).tlb := by
    rw [heq]
    exact mem_tlb_rewriteLeaf (hext.cached _ hcached)
  have hstale : (Asnu.mmap s va pa flags).translate (pageOf va) = some t :=
    hconsistent (pageOf va, t) hmem
  rw [hafter] at hstale
  exact hchanged hstale

/-- What a request does not break. -/
theorem tree_exec {s : Vmm} (hs : s.Tree) {r : Request} (hplain : s.PlainPath r.page)
    (hanswered : s.Answered r) : (s.exec r).Tree := by
  cases r with
  | mmap va pa flags =>
      obtain ⟨fresh, m, pt, hext, hpt, heq⟩ := mmap_spec hs hplain hanswered pa flags
      rw [exec, heq]
      exact tree_rewriteLeaf hext.tree hpt
  | unmap va =>
      rcases unmap_spec hs hplain with ⟨heq, _⟩ | ⟨pt, hpt, heq⟩
      · rw [exec, heq]
        exact hs
      · rw [exec, heq]
        exact tree_invlpg (tree_storeLeaf hs hpt) va

theorem consistent_step {s s' : Vmm} {ev : Event} (hs : s.Tree) (h : s.Consistent)
    (hstep : StepIf KeepsTranslation s ev s') : s'.Tree ∧ s'.Consistent := by
  obtain ⟨hguard, rfl⟩ := hstep
  cases ev with
  | access page => exact ⟨tree_access page hs, consistent_access h page⟩
  | request r =>
      obtain ⟨hplain, hanswered, hkeeps⟩ := hguard r rfl
      refine ⟨tree_exec hs hplain hanswered, ?_⟩
      cases r with
      | mmap va pa flags => exact consistent_mmap hs h hplain hanswered hkeeps
      | unmap va => exact consistent_unmap hs h hplain

end Vmm

/-- From an empty TLB on, in every run in which no `mmap` changes a present
translation, no stale one is cached. -/
theorem no_stale_translation (s t : Vmm) (htree : s.Tree) (hempty : s.tlb = [])
    (events : List Vmm.Event) (hrun : Run (Vmm.StepIf Vmm.KeepsTranslation) s events t) :
    t.Consistent := by
  have hstart : s.Consistent := by simp [Vmm.Consistent, hempty]
  exact (hrun.invariant (fun u => u.Tree ∧ u.Consistent)
    (fun _ _ _ h hstep => Vmm.consistent_step h.1 h.2 hstep) ⟨htree, hstart⟩).2

namespace Sample

theorem boots_vmm : vmm.Boots 8 where
  unshared := tree_vmm.unshared
  cr3 := by
    rw [vmm, Vmm.storeLeaf_root]
    exact show 0x1000#64 = (cpuOn tables).root.address by decide
  grants := grants_vmm

/-- How the page at `0x400000` is translated. -/
def translation : Translation :=
  { frame := 0x20, flags := 3, writable := true, user := false, executable := true }

theorem pageOf_vmm : pageOf 0x400000#64 = 0x400 := by decide

theorem translate_vmmInit : (vmmInit vmm).translate 0x400 = some translation := by
  change Translation.ofEntries 0x400 ((vmmInit vmm).entries 0x400) = _
  rw [boots_vmm.entries_vmmInit, entries_vmm]
  decide

theorem tree_access : ((vmmInit vmm).access 0x400).Tree :=
  Vmm.tree_access 0x400 boots_vmm.tree_vmmInit

theorem plainPath_access : ((vmmInit vmm).access 0x400).PlainPath (pageOf 0x400000#64) :=
  Vmm.plainPath_access 0x400 (boots_vmm.plainPath_vmmInit (clean_vmm.plainPath _))

theorem supplied_access : ((vmmInit vmm).access 0x400).Supplied 0x400000#64 := by
  refine Vmm.supplied_of_translate tree_access plainPath_access ?_
  rw [Vmm.translate_access, pageOf_vmm, translate_vmmInit]
  exact Option.some_ne_none _

end Sample

/-- The page that is cached is mapped again, to the same frame. -/
theorem no_stale_translation_sample :
    ((((vmmInit Sample.vmm).access 0x400).exec
      (.mmap 0x400000#64 0x20000#64 3#64)).access 0x400).Consistent := by
  obtain ⟨htree, hempty, _⟩ := Sample.boots_vmm.vmmInit_spec
  have haccess : Vmm.StepIf Vmm.KeepsTranslation (vmmInit Sample.vmm) (.access 0x400)
      ((vmmInit Sample.vmm).access 0x400) :=
    ⟨fun r h => Vmm.Event.noConfusion h, Eq.refl _⟩
  have hkeeps : ((vmmInit Sample.vmm).access 0x400).KeepsTranslation
      (.mmap 0x400000#64 0x20000#64 3#64) := by
    refine Or.inr ?_
    rw [Vmm.translate_access, Vmm.remapped_access, Vmm.remapped, Sample.pageOf_vmm,
      Sample.translate_vmmInit, Sample.boots_vmm.entries_vmmInit, Sample.entries_vmm]
    decide
  have hmmap : Vmm.StepIf Vmm.KeepsTranslation ((vmmInit Sample.vmm).access 0x400)
      (.request (.mmap 0x400000#64 0x20000#64 3#64))
      (((vmmInit Sample.vmm).access 0x400).exec (.mmap 0x400000#64 0x20000#64 3#64)) := by
    refine ⟨fun r h => ?_, Eq.refl _⟩
    obtain rfl := Vmm.Event.request.inj h
    exact ⟨Sample.plainPath_access, Sample.supplied_access, hkeeps⟩
  have hagain : Vmm.StepIf Vmm.KeepsTranslation
      (((vmmInit Sample.vmm).access 0x400).exec (.mmap 0x400000#64 0x20000#64 3#64))
      (.access 0x400) ((((vmmInit Sample.vmm).access 0x400).exec
        (.mmap 0x400000#64 0x20000#64 3#64)).access 0x400) :=
    ⟨fun r h => Vmm.Event.noConfusion h, Eq.refl _⟩
  exact no_stale_translation _ _ htree hempty _
    (Run.cons haccess (Run.cons hmmap (Run.cons hagain (Run.nil _))))

/-- After `vmm_init`, an accessed page that is mapped to another frame keeps its
old translation in the TLB. -/
theorem remapped_page_is_stale :
    ¬ ∀ (boot t : Vmm) (f : Frame), boot.Boots f → ∀ events : List Vmm.Event,
      Run (Vmm.StepIf (fun _ _ => True)) (vmmInit boot) events t → t.Consistent := by
  intro hclaim
  have haccess : Vmm.StepIf (fun _ _ => True) (vmmInit Sample.vmm) (.access 0x400)
      ((vmmInit Sample.vmm).access 0x400) :=
    ⟨fun r h => Vmm.Event.noConfusion h, Eq.refl _⟩
  have hmmap : Vmm.StepIf (fun _ _ => True) ((vmmInit Sample.vmm).access 0x400)
      (.request (.mmap 0x400000#64 0x30000#64 3#64))
      (mmap ((vmmInit Sample.vmm).access 0x400) 0x400000#64 0x30000#64 3#64) := by
    refine ⟨fun r h => ?_, Eq.refl _⟩
    obtain rfl := Vmm.Event.request.inj h
    exact ⟨Sample.plainPath_access, Sample.supplied_access, trivial⟩
  have hconsistent := hclaim _ _ _ Sample.boots_vmm _
    (Run.cons haccess (Run.cons hmmap (Run.nil _)))
  have htranslate : ((vmmInit Sample.vmm).access 0x400).translate (pageOf 0x400000#64) =
      some Sample.translation := by
    rw [Vmm.translate_access, Sample.pageOf_vmm, Sample.translate_vmmInit]
  have hcached : (pageOf 0x400000#64, Sample.translation) ∈
      ((vmmInit Sample.vmm).access 0x400).tlb := by
    rw [Sample.pageOf_vmm]
    exact Vmm.mem_access Sample.translate_vmmInit
  have hchanged : ((vmmInit Sample.vmm).access 0x400).remapped 0x400000#64 0x30000#64 3#64 ≠
      some Sample.translation := by
    rw [Vmm.remapped_access, Vmm.remapped, Sample.pageOf_vmm,
      Sample.boots_vmm.entries_vmmInit, Sample.entries_vmm]
    decide
  exact Vmm.stale_mmap Sample.tree_access Sample.plainPath_access
    Sample.supplied_access hcached htranslate hchanged hconsistent

end Asnu
