import Asnu.Vmm.Owners

/-!
The rights of the pages that `mmap` has mapped. The hardware grants what all
entries on the way to a page grant. Those above the last tables are writable
and never for the user, whichever pages share them, so the last `mmap` of a
page decides about writing, and none decides about the user.
-/

namespace Asnu

open Lib

/-- What a page may be used for besides reading by the kernel. -/
structure Rights where
  user : Bool
  writable : Bool
  deriving DecidableEq

namespace Rights

/-- What the flags of `mmap` ask for. -/
def asked (flags : BitVec 64) : Rights where
  user := flags &&& pageUser ≠ 0#64
  writable := flags &&& pageRw ≠ 0#64

/-- What a page gets for them. -/
def given (flags : BitVec 64) : Rights := { asked flags with user := false }

theorem given_eq_asked_iff (flags : BitVec 64) :
    given flags = asked flags ↔ flags &&& pageUser = 0#64 := by
  simp [given, asked]

end Rights

/-- The effective rights of a page. -/
def Vmm.rights (s : Vmm) (page : Page) : Option Rights :=
  (s.translate page).map (fun t => { user := t.user, writable := t.writable })

/-- The flags of the last `mmap` of each page that is mapped. -/
def MemEvent.ask (a : Page → Option (BitVec 64)) : MemEvent → Page → Option (BitVec 64)
  | .mmap va _ flags => Function.update a (pageOf va) (some flags)
  | .unmap va => Function.update a (pageOf va) none
  | .call _ => a

def MemEvent.asks (es : List MemEvent) : Page → Option (BitVec 64) :=
  es.foldl MemEvent.ask (fun _ => none)

namespace Entry

theorem linking_user (f : Frame) : user (linking f) = false := by
  simp [user, linking, Frame.address]

theorem linking_writable (f : Frame) : writable (linking f) = true := by
  simp [writable, linking, Frame.address]

theorem writable_leafEntry (pa flags : BitVec 64) :
    writable (leafEntry pa flags) = (Rights.asked flags).writable := by
  have hbit : pageRw = BitVec.twoPow 64 1 := rfl
  have hleaf : writable (leafEntry pa flags) = flags.getLsbD 1 := by
    simp [writable, leafEntry, pagePresent]
  rw [hleaf, Rights.asked, hbit, BitVec.and_twoPow]
  cases flags.getLsbD 1 <;> rfl

end Entry

/-- Three links of tables and the leaf make the rights that `mmap` gives. -/
theorem ofEntries_rights (page : Page) (t1 t2 t3 : Frame) (pa flags : BitVec 64) :
    (Translation.ofEntries page
      [Entry.linking t1, Entry.linking t2, Entry.linking t3, leafEntry pa flags]).map
        (fun t => ({ user := t.user, writable := t.writable } : Rights)) =
      some (Rights.given flags) := by
  simp [Translation.ofEntries, leafEntry_present, Entry.linking_user, Entry.linking_writable,
    Entry.writable_leafEntry, Rights.given]

/-- In the slots every page has the rights that its last `mmap` gives. -/
def MemSystem.Gives (slots : Finset Index) (s : MemSystem)
    (a : Page → Option (BitVec 64)) : Prop :=
  ∀ page : Page, page.extractLsb' 27 9 ∈ slots →
    s.vmm.rights page = (a page).map Rights.given

namespace Vmm

variable {slots : Finset Index} {a : Page → Option (BitVec 64)}

theorem rights_of_viewTranslate {s s' : Vmm} {live live' : List Block}
    (h : Owned slots live s) (h' : Owned slots live' s') {page : Page}
    (hslot : page.extractLsb' 27 9 ∈ slots)
    (hkept : s'.viewTranslate slots page = s.viewTranslate slots page) :
    s'.rights page = s.rights page := by
  rw [rights, rights, h'.translate_eq hslot, h.translate_eq hslot, hkept]

theorem Owned.rights_mmap {live : List Block} {s : Vmm} (h : Owned slots live s) {va : Ptr}
    (hslot : slot va ∈ slots) (htakes : s.EachPalloc Takes va) (pa : Ptr) (flags : BitVec 64) :
    (Asnu.mmap s va pa flags).rights (pageOf va) = some (Rights.given flags) := by
  obtain ⟨t1, t2, t3, _, hentries⟩ := h.mmap_entries hslot htakes pa flags
  have htranslate : (Asnu.mmap s va pa flags).translate (pageOf va) =
      Translation.ofEntries (pageOf va)
        [Entry.linking t1, Entry.linking t2, Entry.linking t3, leafEntry pa flags] :=
    congrArg (Translation.ofEntries (pageOf va)) hentries
  rw [rights, htranslate]
  exact ofEntries_rights _ t1 t2 t3 pa flags

section Events

variable {s : MemSystem} (h : Owned slots s.live s.vmm) (hgives : s.Gives slots a)
include h hgives

/-- An event that keeps the translations of all pages but one. -/
theorem gives_update {s' : MemSystem} (h' : Owned slots s'.live s'.vmm) {page : Page}
    {flags : Option (BitVec 64)}
    (hkept : ∀ other ≠ page, s'.vmm.viewTranslate slots other = s.vmm.viewTranslate slots other)
    (hself : page.extractLsb' 27 9 ∈ slots →
      s'.vmm.rights page = flags.map Rights.given) :
    s'.Gives slots (Function.update a page flags) := by
  intro other hslot
  by_cases hpage : other = page
  · subst hpage
    rw [Function.update_self]
    exact hself hslot
  · rw [Function.update_of_ne hpage, rights_of_viewTranslate h h' hslot (hkept other hpage)]
    exact hgives other hslot

theorem gives_call {s' : MemSystem} (h' : Owned slots s'.live s'.vmm)
    (hkept : ∀ page, s'.vmm.viewTranslate slots page = s.vmm.viewTranslate slots page) :
    s'.Gives slots a := by
  intro page hslot
  rw [rights_of_viewTranslate h h' hslot (hkept page)]
  exact hgives page hslot

/-- Every event keeps the rights of the pages it does not name. -/
theorem gives_step {e : MemEvent} {s' : MemSystem} (hstep : s.Step slots e s')
    (hspares : s.Spares e) : s'.Gives slots (e.ask a) := by
  have h' := h.step hstep hspares
  obtain ⟨hallowed, rfl⟩ := hstep
  cases e with
  | mmap va pa flags =>
      have htakes := MemSystem.takes_of_spares hallowed hspares
      obtain ⟨_, hkept⟩ := h.mmap hallowed.1 htakes pa flags
      exact gives_update h hgives h' hkept (fun _ => h.rights_mmap hallowed.1 htakes pa flags)
  | unmap va =>
      obtain ⟨_, hnone, hkept⟩ := h.unmap hallowed
      refine gives_update h hgives h' hkept (fun hslot => ?_)
      rw [rights, h'.translate_eq hslot, MemSystem.exec_unmap_vmm, hnone]
      rfl
  | call c =>
      cases c with
      | kalloc size => exact gives_call h hgives h' (h.alloc (by simp)).2
      | palloc => exact gives_call h hgives h' (h.alloc (by simp)).2
      | kfree ptr => exact gives_call h hgives h' (h.kfree hallowed hspares).2

end Events

end Vmm

/-- Along a run every page has what its last `mmap` gives. -/
theorem MemSystem.gives_of_run {slots : Finset Index} {s t : MemSystem} {es : List MemEvent}
    (h : Vmm.Owned slots s.live s.vmm) {a : Page → Option (BitVec 64)}
    (hgives : s.Gives slots a)
    (hrun : Run (fun s e s' => MemSystem.Step slots s e s' ∧ s.Spares e) s es t) :
    t.Gives slots (es.foldl MemEvent.ask a) := by
  refine (hrun.simulates (fun s a => Vmm.Owned slots s.live s.vmm ∧ s.Gives slots a)
    ?_ ⟨h, hgives⟩).2
  intro s e s' a hs hstep
  exact ⟨hs.1.step hstep.1 hstep.2, Vmm.gives_step hs.1 hs.2 hstep.1 hstep.2⟩

/-- After `vmm_init` no page in the empty slots is mapped. -/
theorem gives_vmmInit {boot : Vmm} {slots : Finset Index}
    (h : Vmm.Owned slots [] (vmmInit boot))
    (hempty : ∀ i ∈ slots,
      ¬ Entry.present (rd (vmmInit boot).pmm.mem (vmmInit boot).root i)) :
    MemSystem.Gives slots { vmm := vmmInit boot, live := [] } (fun _ => none) := by
  intro page hslot
  have hnone : (vmmInit boot).viewTranslate slots page = none := by
    refine Vmm.ofEntries_absent (p := []) rfl rfl ?_
    rw [Vmm.Owned.view_eq (fun _ => hslot)]
    exact hempty _ hslot
  rw [Vmm.rights, h.translate_eq hslot, hnone]
  rfl

/-- In every run from `vmm_init` in which nothing is written over the bitmap, a
page in the slots has the rights that its last `mmap` asked for, and none when
it is not mapped, exactly if that `mmap` did not ask for `PAGE_USER`. -/
theorem rights_as_asked_iff (m : Memory) (base length bitmapBase spare : BitVec 64)
    (boot : Vmm) (hpmm : boot.pmm = pmmInit m base length bitmapBase spare)
    (htaken : boot.taken = []) (hboot : boot.Takes) (slots : Finset Index)
    (hempty : ∀ i ∈ slots,
      ¬ Entry.present (rd (vmmInit boot).pmm.mem (vmmInit boot).root i))
    (es : List MemEvent) (t : MemSystem)
    (hrun : Run (fun s e s' => MemSystem.Step slots s e s' ∧ s.Spares e)
      { vmm := vmmInit boot, live := [] } es t)
    (page : Page) (hslot : page.extractLsb' 27 9 ∈ slots) :
    t.vmm.rights page = (MemEvent.asks es page).map Rights.asked ↔
      ∀ flags, MemEvent.asks es page = some flags → flags &&& pageUser = 0#64 := by
  have hsized : boot.pmm.Sized := hpmm ▸ pmmInit_sized m base length bitmapBase spare
  have howned := Vmm.owned_vmmInit hsized htaken hboot hempty
  have hrights : t.vmm.rights page = (MemEvent.asks es page).map Rights.given :=
    MemSystem.gives_of_run howned (gives_vmmInit howned hempty) hrun page hslot
  rw [hrights]
  cases hask : MemEvent.asks es page with
  | none => simp
  | some flags => simpa using Rights.given_eq_asked_iff flags

namespace Sample

theorem run_mmap (flags : BitVec 64) :
    Run (fun s e s' => MemSystem.Step {257} s e s' ∧ s.Spares e) (started 8 0x8000#64 0x100)
      [.call .palloc, .mmap sampleVa 0#64 flags]
      ((client 8 0x8000#64 0x100).exec (.mmap sampleVa 0#64 flags)) := by
  have htakes := region_eightFrames.takes_sampleVa (by decide) fine_eightFrames
  exact region_eightFrames.run (by decide) 0#64 flags trivial
    (MemSystem.spares_mmap htakes 0#64 flags) (by decide) (by decide) (by decide)

theorem asks_mmap (flags : BitVec 64) :
    MemEvent.asks [.call .palloc, .mmap sampleVa 0#64 flags] (pageOf sampleVa) = some flags := by
  simp only [MemEvent.asks, List.foldl, MemEvent.ask, Function.update_self]

end Sample

open Sample in
theorem rights_as_asked_iff_kernelPage :
    ((client 8 0x8000#64 0x100).exec (.mmap sampleVa 0#64 pageRw)).vmm.rights (pageOf sampleVa) =
      some { user := false, writable := true } := by
  have hasks := asks_mmap pageRw
  have hiff := rights_as_asked_iff (fun _ => 0#8) (tablePtr 8) 0x8000#64 (tablePtr 0x100)
    0x1000#64 (blankCpu 8 0x8000#64 0x100) rfl rfl takes_eightFrames {257}
    region_eightFrames.absent _ _ (run_mmap pageRw) (pageOf sampleVa) (by decide)
  rw [hasks] at hiff
  exact hiff.mpr (fun flags hflags => Option.some.inj hflags ▸ by decide)

open Sample in
/-- A page mapped for the user is the kernel's: the entries that lead to it are
not for the user. -/
theorem user_page_not_user :
    ∃ t, Run (fun s e s' => MemSystem.Step {257} s e s' ∧ s.Spares e)
        (started 8 0x8000#64 0x100) [.call .palloc, .mmap sampleVa 0#64 (pageRw ||| pageUser)] t ∧
      Rights.asked (pageRw ||| pageUser) = { user := true, writable := true } ∧
      t.vmm.rights (pageOf sampleVa) = some { user := false, writable := true } := by
  refine ⟨_, run_mmap _, by decide, ?_⟩
  exact owned_client.rights_mmap (by decide) takes_client 0#64 (pageRw ||| pageUser)

end Asnu
