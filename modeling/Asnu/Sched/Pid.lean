import Asnu.Pmm.Blocks
import Asnu.Sched.Bytes

/-!
The ids that `create_proc` gives away. `next_pid` counts up and is never reset
after `scheduler_init`, and freed records are handed out again: the ids of the
processes that exist stay apart until the counter has gone round, as long as no
record, stack or freed page is over the bitmap.
-/

namespace Asnu

open Lib

/-- A creation, or `kfree` of a finished process. -/
inductive PidCall where
  | createProc (a : ProcArgs)
  | kfree (p : Ptr)

/-- The kernel with the processes that exist, one entry for each creation, and the number
of creations that have succeeded. -/
structure Population where
  sched : SchedMem
  live : List Ptr
  created : Nat

namespace Population

def start (pmm : Pmm) (s : SchedMem) : Population :=
  { sched := { s with pmm := pmm }.schedulerInit, live := [], created := 0 }

def exec (s : Population) : PidCall → Population
  | .createProc a =>
      let (p, sched) := s.sched.createProc a
      if p = NULL then { s with sched := sched }
      else { sched := sched, live := p :: s.live, created := s.created + 1 }
  | .kfree p =>
      { s with
        sched := { s.sched with pmm := kfree s.sched.pmm p }
        live := s.live.erase p }

def Step (s : Population) (c : PidCall) (s' : Population) : Prop :=
  (∀ p, c = .kfree p → p ∈ s.live) ∧ s' = s.exec c

/-- A creation that gets a frame keeps clear of the bitmap and of the other records, and
the page that `kfree` zeroes has no byte of the bitmap. -/
def Spares (s : Population) : PidCall → Prop
  | .createProc a =>
      (kalloc s.sched.pmm sizeofProcedure).1 ≠ NULL → s.sched.pmm.Separate s.live a
  | .kfree p => kfree s.sched.pmm p = s.sched.pmm ∨ s.sched.pmm.Spares p 4096

def pid (s : Population) (p : Ptr) : Nat := s.sched.record p .pid

/-- The ids of the processes that exist: all different, none 0, and the same in both
places of the record. -/
structure Identified (s : Population) : Prop where
  distinct : s.live.Pairwise (fun p q => s.pid p ≠ s.pid q)
  nonzero : ∀ p ∈ s.live, s.pid p ≠ 0
  stateId : ∀ p ∈ s.live, s.sched.record p .id = s.pid p

/-- The ids are right after the call, and a creation that fails has taken none. -/
structure Identifies (s : Population) (c : PidCall) (s' : Population) : Prop where
  identified : s'.Identified
  unspent : ∀ a, c = .createProc a → (s.sched.createProc a).1 = NULL →
    s'.sched.nextPid = s.sched.nextPid

/-- While the counter has not gone round, ids are between 1 and the number of creations. -/
structure Numbered (s : Population) : Prop where
  houses : s.sched.pmm.Houses s.live
  bound : s.created < 2 ^ 32
  next : s.sched.nextPid = BitVec.ofNat 32 (s.created + 1)
  range : ∀ p ∈ s.live, 0 < s.pid p ∧ s.pid p ≤ s.created
  distinct : s.live.Pairwise (fun p q => s.pid p ≠ s.pid q)
  stateId : ∀ p ∈ s.live, s.sched.record p .id = s.pid p

theorem numbered_start {pmm : Pmm} (h : pmm.Sized) (s : SchedMem) :
    (start pmm s).Numbered where
  houses := ⟨h, List.forall_mem_nil _, List.nodup_nil, List.forall_mem_nil _⟩
  bound := Nat.two_pow_pos 32
  next := rfl
  range := List.forall_mem_nil _
  distinct := List.Pairwise.nil
  stateId := List.forall_mem_nil _

theorem Numbered.identified {s : Population} (h : s.Numbered) : s.Identified where
  distinct := h.distinct
  nonzero := fun p hp => Nat.ne_of_gt (h.range p hp).1
  stateId := h.stateId

/-- The records of a population may be moved to a state that shows the same of them. -/
theorem Numbered.of_records {s t : Population} (h : s.Numbered) (hlive : t.live.Sublist s.live)
    (hhouses : t.sched.pmm.Houses t.live) (hcreated : t.created = s.created)
    (hnext : t.sched.nextPid = s.sched.nextPid)
    (hrecord : ∀ p ∈ t.live, t.sched.record p = s.sched.record p) : t.Numbered := by
  have hpid : ∀ p ∈ t.live, t.pid p = s.pid p := fun p hp => congrFun (hrecord p hp) .pid
  refine ⟨hhouses, hcreated ▸ h.bound, ?_, ?_, ?_, ?_⟩
  · rw [hnext, hcreated]
    exact h.next
  · intro p hp
    rw [hpid p hp, hcreated]
    exact h.range p (hlive.subset hp)
  · refine (h.distinct.sublist hlive).imp_of_mem ?_
    intro p q hp hq hne
    rw [hpid p hp, hpid q hq]
    exact hne
  · intro p hp
    rw [hpid p hp, hrecord p hp]
    exact h.stateId p (hlive.subset hp)

/-- The state after a creation that gets the frame `i`. -/
def withProc (s : Population) (i : Nat) (a : ProcArgs) : Population :=
  { sched := s.sched.spawned i a
    live := s.sched.pmm.frame i :: s.live
    created := s.created + 1 }

section Spawn

variable {s : Population} (h : s.Numbered) {i : Nat} {a : ProcArgs}
  (hfree : s.sched.pmm.firstFree = some i) (hsep : s.sched.pmm.Separate s.live a)
include h hfree hsep

theorem pid_withProc_self : (s.withProc i a).pid (s.sched.pmm.frame i) =
    (s.created + 1) % 2 ^ 32 := by
  have hrecord := congrFun (hsep.record_spawned hfree) .pid
  refine hrecord.trans ?_
  change s.sched.nextPid.toNat = (s.created + 1) % 2 ^ 32
  rw [h.next, BitVec.toNat_ofNat]

/-- The next id is larger than all before it. -/
theorem Numbered.withProc (hnull : s.sched.pmm.frame i ≠ NULL) (hroom : s.created + 1 < 2 ^ 32) :
    (s.withProc i a).Numbered := by
  have hnew : (s.withProc i a).pid (s.sched.pmm.frame i) = s.created + 1 := by
    rw [pid_withProc_self h hfree hsep, Nat.mod_eq_of_lt hroom]
  have hrecord : ∀ q ∈ s.live, (s.withProc i a).sched.record q = s.sched.record q :=
    fun q hq => h.houses.record_spawned_of_mem hfree hsep hq
  have hold : ∀ q ∈ s.live, (s.withProc i a).pid q = s.pid q :=
    fun q hq => congrFun (hrecord q hq) .pid
  refine ⟨h.houses.spawned hfree hsep hnull, hroom, ?_, ?_, ?_, ?_⟩
  · change s.sched.nextPid + 1#32 = BitVec.ofNat 32 (s.created + 1 + 1)
    rw [h.next, ← BitVec.ofNat_add]
  · intro q hq
    rcases List.mem_cons.mp hq with rfl | hq
    · exact ⟨hnew ▸ Nat.succ_pos _, hnew.le⟩
    · rw [hold q hq]
      exact ⟨(h.range q hq).1, (h.range q hq).2.trans (Nat.le_succ _)⟩
  · refine List.Pairwise.cons ?_ (h.distinct.imp_of_mem ?_)
    · intro q hq heq
      rw [hnew, hold q hq] at heq
      exact Nat.not_succ_le_self _ (heq ▸ (h.range q hq).2)
    · intro p q hp hq hne
      rw [hold p hp, hold q hq]
      exact hne
  · intro q hq
    rcases List.mem_cons.mp hq with rfl | hq
    · have hshown := hsep.record_spawned hfree
      exact (congrFun hshown .id).trans (congrFun hshown .pid).symm
    · rw [hold q hq, hrecord q hq]
      exact h.stateId q hq

/-- With the counter gone round the new process has id 0. -/
theorem Numbered.not_identified (hfull : ¬ s.created + 1 < 2 ^ 32) :
    ¬ (s.withProc i a).Identified := by
  intro hid
  have hround : s.created + 1 = 2 ^ 32 := by
    have hbound := h.bound
    omega
  refine hid.nonzero _ List.mem_cons_self ?_
  rw [pid_withProc_self h hfree hsep, hround, Nat.mod_self]

end Spawn

/-- What a creation does: nothing but for a bit, or it fills the first free frame. -/
theorem exec_createProc {s : Population} (h : s.Numbered) (a : ProcArgs) :
    ((s.sched.createProc a).1 = NULL ∧ (s.exec (.createProc a)).Numbered ∧
        (s.exec (.createProc a)).created = s.created ∧
        (s.exec (.createProc a)).sched.nextPid = s.sched.nextPid) ∨
      ((s.sched.createProc a).1 ≠ NULL ∧ ∃ i, s.sched.pmm.firstFree = some i ∧
        s.sched.pmm.frame i ≠ NULL ∧ s.exec (.createProc a) = s.withProc i a) := by
  rcases s.sched.createProc_cases a with
    ⟨_, heq⟩ | ⟨i, hfree, _, heq⟩ | ⟨i, hfree, hne, heq⟩
  · have hexec : s.exec (.createProc a) = s := by simp [exec, heq]
    rw [hexec, heq]
    exact Or.inl ⟨rfl, h, rfl, rfl⟩
  · have hexec : s.exec (.createProc a) =
        { s with sched := { s.sched with pmm := s.sched.pmm.mark i } } := by simp [exec, heq]
    rw [hexec, heq]
    refine Or.inl ⟨rfl, h.of_records (List.Sublist.refl _) (h.houses.mark hfree) rfl rfl ?_,
      rfl, rfl⟩
    exact fun p hp => h.houses.record_mark hfree hp
  · refine Or.inr ⟨?_, i, hfree, hne, ?_⟩
    · rw [heq]
      exact hne
    · simp [exec, heq, hne, withProc]

theorem spares_separate {s : Population} {a : ProcArgs} (hspares : s.Spares (.createProc a))
    {i : Nat} (hfree : s.sched.pmm.firstFree = some i) (hne : s.sched.pmm.frame i ≠ NULL) :
    s.sched.pmm.Separate s.live a := by
  refine hspares ?_
  rwa [kalloc_eq _ (by decide), hfree]

/-- Freeing one process leaves the records of the others alone. -/
theorem Numbered.kfree {s : Population} (h : s.Numbered) {p : Ptr} (hp : p ∈ s.live)
    (hspares : s.Spares (.kfree p)) : (s.exec (.kfree p)).Numbered := by
  have hrest : (s.live.erase p).Nodup := h.houses.distinct.erase p
  have hsub : ∀ q ∈ s.live.erase p, q ∈ s.live ∧ q ≠ p := fun q hq =>
    ⟨List.mem_of_mem_erase hq, fun heq => h.houses.distinct.not_mem_erase (heq ▸ hq)⟩
  rcases hspares with hsame | hmiss
  · have hexec : s.exec (.kfree p) = { s with live := s.live.erase p } := by
      rw [exec, hsame]
    rw [hexec]
    refine h.of_records List.erase_sublist ?_ rfl rfl (fun _ _ => rfl)
    exact h.houses.of_bits rfl (fun q hq => (hsub q hq).1) hrest (fun _ _ _ hset => hset)
  · refine h.of_records List.erase_sublist (h.houses.kfree hp hmiss _ hrest hsub) rfl rfl ?_
    exact fun q hq => h.houses.record_kfree hp hmiss (hsub q hq).1 (hsub q hq).2

/-- One call is right exactly if it does not bring the creations to 2^32. -/
theorem Numbered.identifies_iff {s : Population} (h : s.Numbered) {c : PidCall}
    (hlive : ∀ p, c = .kfree p → p ∈ s.live) (hspares : s.Spares c) :
    s.Identifies c (s.exec c) ↔ (s.exec c).created < 2 ^ 32 := by
  cases c with
  | kfree p =>
      refine iff_of_true ⟨(h.kfree (hlive p rfl) hspares).identified, fun a ha => ?_⟩ h.bound
      exact absurd ha (by simp)
  | createProc a =>
      rcases exec_createProc h a with ⟨_, hnumbered, _, hnext⟩ | ⟨hne, i, hfree, hnull, heq⟩
      · exact iff_of_true ⟨hnumbered.identified, fun _ _ _ => hnext⟩ hnumbered.bound
      · have hsep := spares_separate hspares hfree hnull
        rw [heq]
        constructor
        · intro hgood
          by_contra hfull
          exact h.not_identified hfree hsep hfull hgood.identified
        · intro hroom
          refine ⟨(h.withProc hfree hsep hnull hroom).identified, fun b hb hfail => ?_⟩
          obtain rfl := PidCall.createProc.inj hb
          exact absurd hfail hne

theorem Numbered.exec {s : Population} (h : s.Numbered) {c : PidCall}
    (hlive : ∀ p, c = .kfree p → p ∈ s.live) (hspares : s.Spares c)
    (hroom : (s.exec c).created < 2 ^ 32) : (s.exec c).Numbered := by
  cases c with
  | kfree p => exact h.kfree (hlive p rfl) hspares
  | createProc a =>
      rcases exec_createProc h a with ⟨_, hnumbered, _⟩ | ⟨_, i, hfree, hnull, heq⟩
      · exact hnumbered
      · rw [heq] at hroom ⊢
        exact h.withProc hfree (spares_separate hspares hfree hnull) hnull hroom

theorem created_le (s : Population) (c : PidCall) : s.created ≤ (s.exec c).created := by
  cases c with
  | kfree p => exact le_rfl
  | createProc a =>
      rw [exec]
      dsimp only
      split
      · exact le_rfl
      · exact Nat.le_succ _

/-- The creations stay below a bound if they do so at the end. -/
theorem run_below_iff {step : Population → PidCall → Population → Prop}
    (hstep : ∀ u c u', step u c u' → u.created ≤ u'.created)
    {s t : Population} {calls : List PidCall} {n : Nat} (hs : s.created < n) :
    Run (fun u c u' => step u c u' ∧ u'.created < n) s calls t ↔
      Run step s calls t ∧ t.created < n := by
  constructor
  · intro hrun
    exact ⟨hrun.mono (fun _ _ _ h => h.1),
      hrun.invariant (fun u => u.created < n) (fun _ _ _ _ h => h.2) hs⟩
  · rintro ⟨hrun, hend⟩
    induction hrun with
    | nil u => exact Run.nil u
    | @cons _ u v _ _ hfirst hrest ih =>
        have hle : u.created ≤ v.created := hrest.invariant (fun w => u.created ≤ w.created)
          (fun _ _ _ hw h => hw.trans (hstep _ _ _ h)) le_rfl
        have hmid := hle.trans_lt hend
        exact Run.cons ⟨hfirst, hmid⟩ (ih hmid hend)

end Population

/-- As long as the bitmap and the other records are kept clear of, ids are right throughout
a run exactly if fewer than 2^32 of its creations succeed. -/
theorem pids_identify_iff (m : Memory) (base length bitmapBase spare : BitVec 64)
    (allocs : List Call) (l : Ledger)
    (halloc : Run Ledger.AnyStep
      (Ledger.start (pmmInit m base length bitmapBase spare)) allocs l)
    (s : SchedMem) (calls : List PidCall) (t : Population) :
    Run (fun u c u' => (u.Step c u' ∧ u.Spares c) ∧ u.Identifies c u')
        (Population.start l.pmm s) calls t ↔
      Run (fun u c u' => u.Step c u' ∧ u.Spares c) (Population.start l.pmm s) calls t ∧
        t.created < 2 ^ 32 := by
  have hstart := Population.numbered_start (Ledger.run_sized halloc) s
  have hgrows : ∀ (u : Population) (c : PidCall) (v : Population), u.Step c v ∧ u.Spares c →
      u.created ≤ v.created := by
    rintro u c _ ⟨⟨_, rfl⟩, _⟩
    exact u.created_le c
  rw [← Population.run_below_iff hgrows hstart.bound]
  refine Run.congr_along Population.Numbered ?_ ?_ hstart
  · rintro u c _ h ⟨⟨hlive, rfl⟩, hspares⟩
    exact h.identifies_iff hlive hspares
  · rintro u c _ h ⟨⟨hlive, rfl⟩, hspares⟩ hgood
    exact h.exec hlive hspares ((h.identifies_iff hlive hspares).mp hgood)

namespace Sample

def clearFile : PmmFile where
  base := 0x100000#64
  length := 0x8000#64
  type := 0#32
  flags := 0#32
  reserved := 0#32
  bitmapBase := 0x200000#64
  bitmapLength := 1#64
  bitmapFile := { base := 0x200000#64, length := 1#64, type := 0#32 }

/-- Eight frames in zeroed memory. -/
def clearFrames : Pmm := { mem := fun _ => 0#8, file := clearFile }

theorem eightFrames_eq : eightFrames = clearFrames := by
  refine Pmm.eq_withMem (s := clearFrames) (funext fun x => ?_) rfl
  simp only [eightFrames, pmmInit, memset_eq_fill, Memory.fill]
  split_ifs <;> rfl

def shortLived : ProcArgs where
  entryPoint := 0x1000#64
  privilegeLevel := 0#8
  stackBase := 0x300000#64
  stackSize := 4096#64

/-- After `k` processes that have come and gone. -/
def afterProcs (k : Nat) : Population where
  sched := { untouched with pmm := clearFrames, nextPid := BitVec.ofNat 32 (k + 1) }
  live := []
  created := k

/-- `n` processes that come and go, one after the other. -/
def comeAndGo (n : Nat) : List PidCall :=
  (List.replicate n [.createProc shortLived, .kfree 0x100000#64]).flatten

theorem firstFree_clearFrames : clearFrames.firstFree = some 0 := Pmm.firstFree_eq_some.mpr
  ⟨by decide, by decide, fun j hj => absurd hj (Nat.not_lt_zero j)⟩

theorem exec_shortLived (k : Nat) :
    (afterProcs k).exec (.createProc shortLived) = (afterProcs k).withProc 0 shortLived := by
  have hframe : (afterProcs k).sched.pmm.frame 0 ≠ NULL := by
    change clearFrames.frame 0 ≠ NULL
    decide
  rcases (afterProcs k).sched.createProc_cases shortLived with
    ⟨hnone, _⟩ | ⟨i, hfree, hnull, _⟩ | ⟨i, hfree, hne, heq⟩
  · exact absurd (hnone.symm.trans firstFree_clearFrames) (by simp)
  · obtain rfl := Option.some.inj (hfree.symm.trans firstFree_clearFrames)
    exact absurd hnull hframe
  · obtain rfl := Option.some.inj (hfree.symm.trans firstFree_clearFrames)
    simp [Population.exec, heq, hne, Population.withProc]

/-- Giving the first frame back zeroes its page and its bit. -/
theorem kfree_first {m : Memory} (hbit : m 0x200000#64 = 1#8)
    (hclear : ∀ x, ¬ InRange 0x100000#64 4096 x → x ≠ 0x200000#64 → m x = 0#8) :
    kfree (clearFrames.withMem m) 0x100000#64 = clearFrames := by
  have hlow : clearFile.base ≤ 0x100000#64 := by decide
  have hhigh : 0x100000#64 < clearFile.base + clearFile.length := by decide
  have hindex : ¬ (0x100000#64 - (clearFrames.withMem m).file.base) / 4096#64 ≥
      (clearFrames.withMem m).file.bitmapLength * 8#64 := by
    change ¬ (0x100000#64 - clearFile.base) / 4096#64 ≥ clearFile.bitmapLength * 8#64
    decide
  have hfirst : ((0x100000#64 - (clearFrames.withMem m).file.base) / 4096#64).toNat = 0 := by
    change ((0x100000#64 - clearFile.base) / 4096#64).toNat = 0
    decide
  rw [kfree_eq_release (by decide) hlow hhigh, release, bitmapClearBit, if_neg hindex, hfirst]
  refine congrArg (Pmm.mk · clearFile) (funext fun x => ?_)
  by_cases hpage : InRange 0x100000#64 4096 x
  · rw [Memory.fill_in _ _ hpage]
  · rw [Memory.fill_out _ _ hpage]
    change Bitmap.clear m 0x200000#64 0 x = 0#8
    by_cases hslot : x = 0x200000#64
    · rw [hslot, Bitmap.clear]
      refine (Memory.poke_self m _ _).trans ?_
      change m 0x200000#64 &&& ~~~Bitmap.mask 0 = 0#8
      rw [hbit]
      decide
    · exact (Bitmap.clear_out _ hslot).trans (hclear x hpage hslot)

/-- The record, the word on the stack and the bit are 0 again when the frame is free. -/
theorem kfree_spawned (k : Nat) :
    kfree ((afterProcs k).sched.spawned 0 shortLived).pmm 0x100000#64 = clearFrames := by
  have hout : ∀ x, ¬ InRange 0x100000#64 4096 x → ¬ procLayout.Has 0x100000#64 x :=
    fun x hpage hx => hpage (lt_of_lt_of_le hx (by decide))
  refine kfree_first ?_ (fun x hpage hslot => ?_)
  · have hkept := initRecord_out (clearFrames.mark 0).mem 0x100000#64 (BitVec.ofNat 32 (k + 1))
      shortLived (x := 0x200000#64) (by decide) (by decide)
    exact hkept.trans (by decide)
  · by_cases hword : InRange shortLived.stackTop 8 x
    · exact initRecord_word _ _ _ _ (hout x hpage) hword
    · exact (initRecord_out _ _ _ _ (hout x hpage) hword).trans (Bitmap.set_out _ hslot)

theorem exec_kfree (k : Nat) :
    ((afterProcs k).exec (.createProc shortLived)).exec (.kfree 0x100000#64) =
      afterProcs (k + 1) := by
  have hnext : BitVec.ofNat 32 (k + 1) + 1#32 = BitVec.ofNat 32 (k + 1 + 1) :=
    (BitVec.ofNat_add ..).symm
  have hlive : [clearFrames.frame 0].erase 0x100000#64 = [] := by decide
  rw [exec_shortLived, Population.exec]
  change Population.mk { untouched with
      pmm := kfree ((afterProcs k).sched.spawned 0 shortLived).pmm 0x100000#64
      nextPid := BitVec.ofNat 32 (k + 1) + 1#32 }
    ([clearFrames.frame 0].erase 0x100000#64) (k + 1) = afterProcs (k + 1)
  rw [kfree_spawned, hnext, hlive]
  rfl

theorem mem_live_shortLived (k : Nat) :
    0x100000#64 ∈ ((afterProcs k).exec (.createProc shortLived)).live := by
  have hframe : clearFrames.frame 0 = 0x100000#64 := by decide
  rw [exec_shortLived]
  exact hframe ▸ List.mem_singleton_self _

theorem run_comeAndGo (n k : Nat) :
    Run Population.Step (afterProcs k) (comeAndGo n) (afterProcs (k + n)) := by
  induction n generalizing k with
  | zero => exact Run.nil _
  | succ n ih =>
      have hlive : ∀ p, PidCall.kfree 0x100000#64 = .kfree p →
          p ∈ ((afterProcs k).exec (.createProc shortLived)).live := by
        rintro p heq
        exact PidCall.kfree.inj heq ▸ mem_live_shortLived k
      have hpair : Run Population.Step (afterProcs k)
          [.createProc shortLived, .kfree 0x100000#64] (afterProcs (k + 1)) :=
        Run.cons ⟨by simp, rfl⟩ (Run.cons ⟨hlive, (exec_kfree k).symm⟩ (Run.nil _))
      have hrest : Run Population.Step (afterProcs (k + 1)) (comeAndGo n)
          (afterProcs (k + 1 + n)) := ih (k + 1)
      rw [Nat.add_right_comm] at hrest
      rw [comeAndGo, List.replicate_succ, List.flatten_cons]
      exact hpair.append hrest

theorem pid_shortLived (k : Nat) :
    ((afterProcs k).exec (.createProc shortLived)).pid 0x100000#64 = (k + 1) % 2 ^ 32 := by
  have hframe : clearFrames.frame 0 = 0x100000#64 := by decide
  have hrecord := get_initRecord (clearFrames.mark 0).mem 0x100000#64
    (BitVec.ofNat 32 (k + 1)) shortLived ((forall_inRange_iff (by decide)).mpr (by decide))
  rw [exec_shortLived]
  exact (congrFun hrecord .pid).trans (BitVec.toNat_ofNat ..)

end Sample

open Sample in
theorem pids_identify_iff_shortLived :
    Run (fun u c u' => (u.Step c u' ∧ u.Spares c) ∧ u.Identifies c u')
        (Population.start eightFrames untouched) [.createProc shortLived]
        ((Population.start eightFrames untouched).exec (.createProc shortLived)) ↔
      Run (fun u c u' => u.Step c u' ∧ u.Spares c)
          (Population.start eightFrames untouched) [.createProc shortLived]
          ((Population.start eightFrames untouched).exec (.createProc shortLived)) ∧
        ((Population.start eightFrames untouched).exec (.createProc shortLived)).created < 2 ^ 32 :=
  pids_identify_iff _ _ _ _ _ [] _ (Run.nil (Ledger.start eightFrames)) untouched _ _

open Sample in
/-- After 2^32 - 1 processes that have come and gone the next one has id 0. -/
theorem pid_zero_given :
    ¬ ∀ (m : Memory) (base length bitmapBase spare : BitVec 64) (allocs : List Call) (l : Ledger),
      Run Ledger.AnyStep (Ledger.start (pmmInit m base length bitmapBase spare)) allocs l →
      ∀ (s : SchedMem) (calls : List PidCall) (t : Population),
      Run Population.Step (Population.start l.pmm s) calls t → t.Identified := by
  intro hclaim
  have hstart : Population.start eightFrames untouched = afterProcs 0 := by
    rw [eightFrames_eq]
    rfl
  have hrun : Run Population.Step (Population.start eightFrames untouched)
      (comeAndGo (2 ^ 32 - 1) ++ [.createProc shortLived])
      ((afterProcs (0 + (2 ^ 32 - 1))).exec (.createProc shortLived)) := by
    rw [hstart]
    exact (run_comeAndGo (2 ^ 32 - 1) 0).append (Run.cons ⟨by simp, rfl⟩ (Run.nil _))
  have hidentified := hclaim _ _ _ _ _ [] _ (Run.nil (Ledger.start eightFrames)) untouched _ _ hrun
  refine hidentified.nonzero _ (mem_live_shortLived _) ?_
  rw [pid_shortLived]
  norm_num

end Asnu
