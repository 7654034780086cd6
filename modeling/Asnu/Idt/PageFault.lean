import Asnu.Vmm.Owners

/-!
The page fault handler of `idt.c` and the access that faulted. The handler maps
the faulting page to the frame of the same number, for the kernel; whether the
access succeeds after it is up to the entries the CPU then reads. The log lines
are left out.
-/

namespace Asnu

open Lib

/-- `none` when the machine is stopped. The error code is only logged. -/
def exceptionHandler (s : Vmm) (exception : BitVec 32) (_errCode cr2 : BitVec 64) :
    Option Vmm :=
  if exception.slt 0#32 ∨ (31#32).slt exception then none
  else if exception = 14#32 then
    if cr2 = 0#64 ∨ (cr2 ≥ 0#64 ∧ cr2 < 0x1000#64) then none
    else some (mmap s cr2 cr2 (pagePresent ||| pageRw))
  else none

inductive AccessKind where
  | read
  | write
  | fetch
  deriving DecidableEq

structure PageAccess where
  kind : AccessKind
  user : Bool

/-- What depends on the CPU in the check of an entry. -/
structure Paging where
  /-- The bits that have to be clear in a present entry. -/
  reserved : BitVec 64
  /-- `EFER.NXE`, by which bit 63 forbids fetches. -/
  noExecute : Bool
  /-- None of the flags `mmap` can set is among them. -/
  reserved_low : reserved &&& 0xFFF#64 = 0#64

namespace Paging

/-- The entry is present, has no reserved bit set and allows the access. -/
def lets (p : Paging) (a : PageAccess) (e : Entry) : Bool :=
  e.present && (e &&& p.reserved == 0#64) && (!a.user || e.user) &&
    match a.kind with
    | .read => true
    | .write => e.writable
    | .fetch => !(p.noExecute && e.noExecute)

/-- The walk of an address goes through four entries that allow the access. -/
def Permits (p : Paging) (s : Vmm) (va : Ptr) (a : PageAccess) : Prop :=
  (s.entries (pageOf va)).length = 4 ∧ ∀ e ∈ s.entries (pageOf va), p.lets a e

/-- The frame has a physical address. -/
def Backs (p : Paging) (f : Frame) : Prop := f.address &&& p.reserved = 0#64

theorem reserved_getLsbD (p : Paging) {i : Nat} (hi : i < 12) :
    p.reserved.getLsbD i = false := by
  have hmask : (0xFFF#64).getLsbD i = decide (i < 12) := Nat.testBit_two_pow_sub_one 12 i
  have hbit := congrArg (fun x => BitVec.getLsbD x i) p.reserved_low
  simpa [hmask, hi] using hbit

/-- The reserved bits of an entry are those of the address in it. -/
theorem reserved_of_high {p : Paging} {x e : BitVec 64}
    (hhigh : ∀ i, 12 ≤ i → e.getLsbD i = x.getLsbD i) :
    e &&& p.reserved = x &&& p.reserved := by
  apply BitVec.eq_of_getLsbD_eq
  intro i _
  rw [BitVec.getLsbD_and, BitVec.getLsbD_and]
  by_cases hi : i < 12
  · rw [p.reserved_getLsbD hi, Bool.and_false, Bool.and_false]
  · rw [hhigh i (by omega)]

/-- What an entry with the flags present and writable allows: everything but
user accesses, unless its address field has bits that it should not. -/
theorem lets_iff (p : Paging) (a : PageAccess) {x e : BitVec 64}
    (hlow : ∀ i < 12, e.getLsbD i = decide (i < 2))
    (hhigh : ∀ i, 12 ≤ i → e.getLsbD i = x.getLsbD i) :
    p.lets a e ↔ a.user = false ∧ x &&& p.reserved = 0#64 ∧
      (a.kind = .fetch → p.noExecute → x.getLsbD 63 = false) := by
  have hpresent : Entry.present e = true := hlow 0 (by decide)
  have hwritable : Entry.writable e = true := hlow 1 (by decide)
  have huser : Entry.user e = false := hlow 2 (by decide)
  have hnx : Entry.noExecute e = x.getLsbD 63 := hhigh 63 (by decide)
  rw [lets, hpresent, huser, reserved_of_high hhigh]
  cases hkind : a.kind with
  | read => simp [and_comm]
  | write => simp [hwritable, and_comm]
  | fetch =>
      rw [hnx]
      cases p.noExecute <;> simp [and_comm, and_assoc]

theorem getLsbD_flags (i : Nat) : (3#64).getLsbD i = decide (i < 2) :=
  Nat.testBit_two_pow_sub_one 2 i

/-- A table may be linked from anywhere in physical memory. -/
theorem lets_linking (p : Paging) (a : PageAccess) {f : Frame} (hf : p.Backs f) :
    p.lets a (Entry.linking f) ↔ a.user = false := by
  have hlow : ∀ i < 12, f.address.getLsbD i = false := by
    intro i hi
    rw [Frame.address, BitVec.getLsbD_shiftLeft]
    simp [hi]
  have htop : f.address.getLsbD 63 = false := by
    rw [Frame.address, BitVec.getLsbD_shiftLeft]
    simp
  rw [p.lets_iff a (x := f.address) (fun i hi => ?_) (fun i hi => ?_)]
  · exact ⟨fun h => h.1, fun h => ⟨h, hf, fun _ _ => htop⟩⟩
  · rw [Entry.linking, BitVec.getLsbD_or, hlow i hi, getLsbD_flags, Bool.false_or]
  · rw [Entry.linking, BitVec.getLsbD_or, getLsbD_flags, decide_eq_false (by omega),
      Bool.or_false]

/-- The leaf of the handler carries all bits of the address from bit 12 on. -/
theorem lets_leaf (p : Paging) (a : PageAccess) (cr2 : Ptr) :
    p.lets a (leafEntry cr2 (pagePresent ||| pageRw)) ↔
      a.user = false ∧ cr2 &&& p.reserved = 0#64 ∧
        (a.kind = .fetch → p.noExecute → cr2.getLsbD 63 = false) := by
  have hmask : ∀ i, (0xFFF#64).getLsbD i = decide (i < 12) :=
    Nat.testBit_two_pow_sub_one 12
  have hleaf : leafEntry cr2 (pagePresent ||| pageRw) = (cr2 &&& ~~~0xFFF#64) ||| 3#64 := by
    rw [leafEntry, BitVec.or_assoc]
    rfl
  refine p.lets_iff a (fun i hi => ?_) (fun i hi => ?_)
  · rw [hleaf, BitVec.getLsbD_or, BitVec.getLsbD_and, BitVec.getLsbD_not, hmask, getLsbD_flags]
    simp [hi]
  · rw [hleaf, BitVec.getLsbD_or, BitVec.getLsbD_and, BitVec.getLsbD_not, hmask, getLsbD_flags,
      decide_eq_false (show ¬ i < 12 by omega), decide_eq_false (show ¬ i < 2 by omega)]
    simpa using fun h => BitVec.lt_of_getLsbD h

end Paging

/-- The handler returns from page faults outside the first page only, and then
it has mapped the page. -/
theorem exceptionHandler_eq_some {s s' : Vmm} {exception : BitVec 32} {errCode cr2 : BitVec 64}
    (h : exceptionHandler s exception errCode cr2 = some s') :
    exception = 14#32 ∧ ¬ cr2 < 0x1000#64 ∧ s' = mmap s cr2 cr2 (pagePresent ||| pageRw) := by
  unfold exceptionHandler at h
  split at h
  · cases h
  · split at h
    · next hfault =>
        split at h
        · cases h
        · next hlow =>
            refine ⟨hfault, fun hlt => hlow (Or.inr ⟨BitVec.le_def.mpr (by simp), hlt⟩), ?_⟩
            exact (Option.some.inj h).symm
    · cases h

/-- On whole tables the walk after the handler reads its leaf. -/
theorem Paging.permits_iff (p : Paging) {slots : Finset Index} {live : List Block} {s : Vmm}
    (h : Vmm.Owned slots live s) {cr2 : Ptr} (hslot : Vmm.slot cr2 ∈ slots)
    (htakes : s.EachPalloc Vmm.Takes cr2) {s' : Vmm}
    (hmmap : s' = mmap s cr2 cr2 (pagePresent ||| pageRw))
    (hbacks : ∀ f, tablePtr f ∈ s'.taken → p.Backs f) (a : PageAccess) :
    p.Permits s' cr2 a ↔ a.user = false ∧ cr2 &&& p.reserved = 0#64 ∧
      (a.kind = .fetch → p.noExecute → cr2.getLsbD 63 = false) := by
  obtain ⟨t1, t2, t3, htaken, hentries⟩ :=
    h.mmap_entries hslot htakes cr2 (pagePresent ||| pageRw)
  rw [← hmmap] at htaken hentries
  have hlinking : ∀ f ∈ [t1, t2, t3], (p.lets a (Entry.linking f) ↔ a.user = false) :=
    fun f hf => p.lets_linking a (hbacks f (htaken f hf))
  rw [Permits, hentries, ← p.lets_leaf a cr2]
  constructor
  · rintro ⟨_, hlets⟩
    exact hlets _ (by simp)
  · intro hleaf
    have huser := ((p.lets_leaf a cr2).mp hleaf).1
    refine ⟨rfl, fun e he => ?_⟩
    simp only [List.mem_cons, List.not_mem_nil, or_false] at he
    rcases he with rfl | rfl | rfl | rfl
    · exact (hlinking t1 (by simp)).mpr huser
    · exact (hlinking t2 (by simp)).mpr huser
    · exact (hlinking t3 (by simp)).mpr huser
    · exact hleaf

/-- On tables that `mmap` and `unmap` have built in some slots of the PML4, a
fault the handler returns from is cured exactly for accesses of the kernel, when
the bits of the faulting address fit in an entry, and, for a fetch, do not
forbid it. -/
theorem page_fault_cured_iff (m : Memory) (base length bitmapBase spare : BitVec 64)
    (boot : Vmm) (hpmm : boot.pmm = pmmInit m base length bitmapBase spare)
    (htaken : boot.taken = []) (hboot : boot.Takes) (slots : Finset Index)
    (hempty : ∀ i ∈ slots,
      ¬ Entry.present (rd (vmmInit boot).pmm.mem (vmmInit boot).root i))
    (es : List MemEvent) (t : MemSystem)
    (hrun : Run (fun s e s' => MemSystem.Step slots s e s' ∧ s.Spares e)
      { vmm := vmmInit boot, live := [] } es t)
    (cr2 : Ptr) (hslot : Vmm.slot cr2 ∈ slots) (htakes : t.vmm.EachPalloc Vmm.Takes cr2)
    (exception : BitVec 32) (errCode : BitVec 64) (s' : Vmm)
    (hreturns : exceptionHandler t.vmm exception errCode cr2 = some s')
    (p : Paging) (hbacks : ∀ f, tablePtr f ∈ s'.taken → p.Backs f) (a : PageAccess) :
    p.Permits s' cr2 a ↔ a.user = false ∧ cr2 &&& p.reserved = 0#64 ∧
      (a.kind = .fetch → p.noExecute → cr2.getLsbD 63 = false) := by
  have hsized : boot.pmm.Sized := hpmm ▸ pmmInit_sized m base length bitmapBase spare
  have howned : Vmm.Owned slots t.live t.vmm :=
    MemSystem.owned_of_run (Vmm.owned_vmmInit hsized htaken hboot hempty) hrun
  obtain ⟨_, _, hmmap⟩ := exceptionHandler_eq_some hreturns
  exact p.permits_iff howned hslot htakes hmmap hbacks a

namespace Sample

/-- A CPU with 52 address bits and no-execute enabled. -/
def widePaging : Paging where
  reserved := 0#64
  noExecute := true
  reserved_low := rfl

theorem backs_wide (f : Frame) : widePaging.Backs f := by
  rw [Paging.Backs, widePaging, BitVec.and_zero]

/-- The client system after the fault. -/
def recovered : Vmm :=
  mmap (client 8 0x8000#64 0x100).vmm sampleVa sampleVa (pagePresent ||| pageRw)

theorem handler_sampleVa (errCode : BitVec 64) :
    exceptionHandler (client 8 0x8000#64 0x100).vmm 14#32 errCode sampleVa = some recovered := by
  rw [exceptionHandler, if_neg (by decide), if_pos rfl, if_neg (by decide), recovered]

end Sample

open Sample in
/-- A fetch from the upper half faults again, since bit 63 of the address has
become the bit that forbids fetches, and so does every user access. -/
theorem upper_fetch_faults_again :
    ∃ t s', Run (fun s e s' => MemSystem.Step {257} s e s' ∧ s.Spares e)
        (started 8 0x8000#64 0x100) [.call .palloc] t ∧
      exceptionHandler t.vmm 14#32 16#64 sampleVa = some s' ∧
      ¬ widePaging.Permits s' sampleVa { kind := .fetch, user := false } ∧
      ∀ kind, ¬ widePaging.Permits s' sampleVa { kind := kind, user := true } := by
  have hiff := widePaging.permits_iff owned_client (by decide) takes_client
    (Eq.refl recovered) (fun f _ => backs_wide f)
  refine ⟨_, recovered, run_client, handler_sampleVa 16#64, fun hpermits => ?_,
    fun kind hpermits => ?_⟩
  · exact absurd (((hiff _).mp hpermits).2.2 rfl rfl) (by decide)
  · exact absurd ((hiff _).mp hpermits).1 (by simp)

open Sample in
theorem page_fault_cured_iff_kernelWrite :
    widePaging.Permits recovered sampleVa { kind := .write, user := false } :=
  (page_fault_cured_iff (fun _ => 0#8) (tablePtr 8) 0x8000#64 (tablePtr 0x100) 0x1000#64
    (blankCpu 8 0x8000#64 0x100) rfl rfl takes_eightFrames {257} region_eightFrames.absent
    [.call .palloc] (client 8 0x8000#64 0x100) run_client sampleVa (by decide) takes_client 14#32
    2#64 recovered (handler_sampleVa 2#64) widePaging (fun f _ => backs_wide f)
    { kind := .write, user := false }).mpr ⟨rfl, by decide, by decide⟩

end Asnu
