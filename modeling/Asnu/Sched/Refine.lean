import Asnu.Sched.Bytes
import Asnu.Sched.Kernel

/-!
The scheduler over bytes follows the scheduler over objects. As long as every creation
gets a record and writes to a stack that keep clear of the bitmap and of the other
records, the bytes of the created procedures show the objects, and both make the same
choices.
-/

namespace Asnu

open Lib

/-- The scheduler over bytes, with the history that `Kernel` keeps. -/
structure ByteKernel where
  sched : SchedMem
  created : List (Ptr × ProcArgs)
  submitted : List Ptr

namespace ByteKernel

def exec (b : ByteKernel) : SchedCall → ByteKernel
  | .createProc a =>
      let (p, sched) := b.sched.createProc a
      { b with
        sched := sched
        created := if p = NULL then b.created else (p, a) :: b.created }
  | .registerProc p =>
      { b with
        sched := b.sched.registerProc p
        submitted := b.submitted ++ [p] }
  | .contextSwitch cpu => { b with sched := (b.sched.contextSwitch cpu).1 }

def StepIf (guard : ByteKernel → SchedCall → Prop) (b : ByteKernel) (c : SchedCall)
    (b' : ByteKernel) : Prop := guard b c ∧ b' = b.exec c

def records (b : ByteKernel) : List Ptr := b.created.map Prod.fst

def Created (b : ByteKernel) (p : Ptr) : Prop := p ∈ b.records

instance (b : ByteKernel) (p : Ptr) : Decidable (b.Created p) :=
  inferInstanceAs (Decidable (p ∈ b.records))

/-- `scheduler_init` on top of an allocator state. -/
def boot (pmm : Pmm) (s : SchedMem) : ByteKernel :=
  { sched := { s with pmm := pmm }.schedulerInit, created := [], submitted := [] }

/-- A creation that gets a frame keeps clear of the bitmap and of the other records. -/
def Spares (b : ByteKernel) : SchedCall → Prop
  | .createProc a =>
      (kalloc b.sched.pmm sizeofProcedure).1 ≠ NULL → b.sched.pmm.Separate b.records a
  | .registerProc _ | .contextSwitch _ => True

end ByteKernel

/-- The current process is left, if there is one. -/
def Sched.left (s : Sched) (cpu : Cpu) : Sched :=
  if s.currentProc = NULL then s
  else (s.saveContext s.currentProc cpu).setState s.currentProc .procReady

/-- `next` is taken up. -/
def Sched.takenUp (s : Sched) (next : Ptr) : Sched :=
  { s.setState next .procRunning with currentProc := next }

theorem contextSwitch_of_dispatches {s : Sched} {next : Ptr} (h : s.Dispatches next) (cpu : Cpu) :
    contextSwitch s cpu = .jump ((s.left cpu).takenUp next)
      (restoreRegs (((s.left cpu).takenUp next).procs next).state.regs) := by
  obtain ⟨rfl, hnull, hne⟩ := h
  unfold contextSwitch
  rw [if_neg hnull, if_neg hne]
  rfl

/-- The same of a creation among objects. -/
def Kernel.Spares (k : Kernel) : SchedCall → Prop
  | .createProc a =>
      (kalloc k.pmm sizeofProcedure).1 ≠ NULL → k.pmm.Separate (k.created.map Prod.fst) a
  | .registerProc _ | .contextSwitch _ => True

instance Kernel.decidableSpares (k : Kernel) : (c : SchedCall) → Decidable (k.Spares c)
  | .createProc a => inferInstanceAs (Decidable (_ → Pmm.Separate _ _ a))
  | .registerProc _ => inferInstanceAs (Decidable True)
  | .contextSwitch _ => inferInstanceAs (Decidable True)

/-- The scheduler knows created processes only. -/
structure Kernel.Knows (k : Kernel) : Prop where
  listed : ∀ p ∈ k.sched.procList, k.Created p
  current : k.sched.currentProc ≠ NULL → k.Created k.sched.currentProc

/-- The bytes of `b` show the objects of `k`. -/
structure Shows (b : ByteKernel) (k : Kernel) : Prop where
  houses : b.sched.pmm.Houses b.records
  file : b.sched.pmm.file = k.pmm.file
  bits : ∀ j < k.pmm.bitCount, b.sched.pmm.bit j = k.pmm.bit j
  procList : b.sched.procList = k.sched.procList
  currentProc : b.sched.currentProc = k.sched.currentProc
  nextPid : b.sched.nextPid = k.sched.nextPid
  created : b.created = k.created
  submitted : b.submitted = k.submitted
  record : ∀ p ∈ b.records, b.sched.record p = (k.sched.procs p).field

namespace Shows

variable {b : ByteKernel} {k : Kernel} (h : Shows b k)
include h

theorem created_iff (p : Ptr) : b.Created p ↔ k.Created p := by
  rw [ByteKernel.Created, ByteKernel.records, h.created, Kernel.Created, List.mem_map]
  constructor
  · rintro ⟨⟨_, a⟩, ha, rfl⟩
    exact ⟨a, ha⟩
  · rintro ⟨a, ha⟩
    exact ⟨_, ha, rfl⟩

theorem firstFree : b.sched.pmm.firstFree = k.pmm.firstFree :=
  Pmm.firstFree_of_bits h.file h.bits

theorem frame (i : Nat) : b.sched.pmm.frame i = k.pmm.frame i := Pmm.frame_of_file_eq h.file i

theorem bitCount : b.sched.pmm.bitCount = k.pmm.bitCount := by
  rw [Pmm.bitCount, Pmm.bitCount, h.file]

theorem bit_mark {i j : Nat} (hi : i < k.pmm.bitCount) (hj : j < k.pmm.bitCount) :
    (b.sched.pmm.mark i).bit j = (k.pmm.mark i).bit j := by
  have hsized := h.houses.sized
  have hcount := h.bitCount
  rw [hsized.bit_mark (hcount ▸ hi) (hcount ▸ hj),
    (hsized.of_file_eq h.file.symm).bit_mark hi hj, h.bits j hj]

theorem kalloc_eq : (kalloc b.sched.pmm sizeofProcedure).1 = (kalloc k.pmm sizeofProcedure).1 := by
  rw [Asnu.kalloc_eq _ (by decide), Asnu.kalloc_eq _ (by decide), h.firstFree]
  cases k.pmm.firstFree with
  | none => rfl
  | some i => exact h.frame i

theorem spares_iff (c : SchedCall) : b.Spares c ↔ k.Spares c := by
  cases c with
  | createProc a =>
      have hrecords : b.records = k.created.map Prod.fst := congrArg (List.map Prod.fst) h.created
      rw [ByteKernel.Spares, h.kalloc_eq, Kernel.Spares]
      refine imp_congr_right (fun _ => ⟨fun hb => ?_, fun hk => ?_⟩)
      · obtain ⟨hrecord, hword, hapart⟩ := hb
        rw [h.kalloc_eq] at hrecord hapart
        exact ⟨hrecord.of_file_eq h.file.symm, hword.of_file_eq h.file.symm, hrecords ▸ hapart⟩
      · obtain ⟨hrecord, hword, hapart⟩ := hk
        rw [← h.kalloc_eq] at hrecord hapart
        exact ⟨hrecord.of_file_eq h.file, hword.of_file_eq h.file, hrecords ▸ hapart⟩
  | registerProc p => exact Iff.rfl
  | contextSwitch cpu => exact Iff.rfl

theorem createProc (a : ProcArgs) (hspares : b.Spares (.createProc a)) :
    Shows (b.exec (.createProc a)) (k.exec (.createProc a)) := by
  have hkalloc := @Asnu.kalloc_eq k.pmm sizeofProcedure (by decide)
  have hbytes := @Asnu.kalloc_eq b.sched.pmm sizeofProcedure (by decide)
  rcases b.sched.createProc_cases a with
    ⟨hnone, heq⟩ | ⟨i, hfree, hnull, heq⟩ | ⟨i, hfree, hne, heq⟩
  · rw [← h.firstFree, hnone] at hkalloc
    have hb : b.exec (.createProc a) = b := by simp [ByteKernel.exec, heq]
    have hk : k.exec (.createProc a) = k := by simp [Kernel.exec, Asnu.createProc, hkalloc]
    rw [hb, hk]
    exact h
  · have hi := (Pmm.firstFree_eq_some.mp (h.firstFree ▸ hfree)).1
    rw [← h.firstFree, hfree] at hkalloc
    rw [h.frame] at hnull
    have hb : b.exec (.createProc a) =
        { b with sched := { b.sched with pmm := b.sched.pmm.mark i } } := by
      simp [ByteKernel.exec, heq]
    have hk : k.exec (.createProc a) = { k with pmm := k.pmm.mark i } := by
      simp [Kernel.exec, Asnu.createProc, hkalloc, hnull]
    rw [hb, hk]
    exact {
      h with
      houses := h.houses.mark hfree
      bits := fun j hj => h.bit_mark hi hj
      record := fun p hp => (h.houses.record_mark hfree hp).trans (h.record p hp) }
  · have hi := (Pmm.firstFree_eq_some.mp (h.firstFree ▸ hfree)).1
    rw [hfree] at hbytes
    have hsep := hspares (by rwa [hbytes])
    rw [← h.firstFree, hfree] at hkalloc
    have hnek : k.pmm.frame i ≠ NULL := h.frame i ▸ hne
    have hb : b.exec (.createProc a) =
        { b with
          sched := b.sched.spawned i a
          created := (b.sched.pmm.frame i, a) :: b.created } := by
      simp [ByteKernel.exec, heq, hne]
    have hk : k.exec (.createProc a) = k.withProc (k.pmm.mark i) (k.pmm.frame i) a := by
      simp [Kernel.exec, Asnu.createProc, hkalloc, hnek, Kernel.withProc]
    rw [hb, hk]
    refine ⟨h.houses.spawned hfree hsep hne, h.file, ?_, h.procList, h.currentProc, ?_, ?_,
      h.submitted, ?_⟩
    · intro j hj
      exact (hsep.bit_spawned hfree (h.bitCount ▸ hj)).trans (h.bit_mark hi hj)
    · exact congrArg (· + 1#32) h.nextPid
    · change _ :: b.created = _ :: k.created
      rw [h.frame, h.created]
    · intro p hp
      rcases List.mem_cons.mp hp with rfl | hp
      · refine (hsep.record_spawned hfree).trans ?_
        rw [h.nextPid, h.frame]
        simp [Kernel.withProc, Sched.update]
      · have hpi : p ≠ k.pmm.frame i := by
          rw [← h.frame]
          exact fun heq => h.houses.notMem hfree (heq ▸ hp)
        refine (h.houses.record_spawned_of_mem hfree hsep hp).trans ?_
        rw [h.record p hp]
        simp [Kernel.withProc, Sched.update, hpi]

/-- Stores to fields of a created record, as an update of the object. -/
theorem store {p : Ptr} (hp : b.Created p) {stores : List (ProcField × Nat)}
    {f : Procedure → Procedure}
    (hf : updated (k.sched.procs p).field stores = (f (k.sched.procs p)).field) :
    Shows { b with sched := b.sched.store p stores }
      { k with sched := k.sched.update p f } where
  houses := h.houses.store hp stores
  file := h.file
  bits := fun j hj => (h.houses.bit_store hp stores (h.bitCount ▸ hj)).trans (h.bits j hj)
  procList := h.procList
  currentProc := h.currentProc
  nextPid := h.nextPid
  created := h.created
  submitted := h.submitted
  record := by
    intro q hq
    by_cases hqp : q = p
    · subst hqp
      have hstored : (b.sched.store q stores).record q = updated (b.sched.record q) stores :=
        Layout.get_putAll _ _ _
      rw [hstored, h.record q hq, hf]
      simp [Sched.update]
    · refine (h.houses.record_store_ne hp hq hqp stores).trans ?_
      rw [h.record q hq]
      simp [Sched.update, hqp]

theorem setState {p : Ptr} (hp : b.Created p) (st : SchedulerState) :
    Shows { b with sched := b.sched.setState p st } { k with sched := k.sched.setState p st } :=
  h.store hp (updated_setState _ st)

theorem saveContext {p : Ptr} (hp : b.Created p) (cpu : Cpu) :
    Shows { b with sched := b.sched.store p (savedRegs cpu) }
      { k with sched := k.sched.saveContext p cpu } :=
  h.store hp (updated_savedRegs _ cpu)

theorem procCount : b.sched.procCount = k.sched.procCount := congrArg List.length h.procList

theorem registerProc {p : Ptr} (hp : b.Created p) :
    Shows (b.exec (.registerProc p)) (k.exec (.registerProc p)) := by
  have hcount := h.procCount
  have hcur := h.currentProc
  have hlist : b.sched.procList ++ [p] = k.sched.procList ++ [p] := congrArg (· ++ [p]) h.procList
  have hsubmitted : b.submitted ++ [p] = k.submitted ++ [p] := congrArg (· ++ [p]) h.submitted
  have hready := h.setState hp .procReady
  rw [ByteKernel.exec, Kernel.exec]
  rcases registerProc_cases k.sched p with ⟨hfull, hk⟩ | ⟨hlt, hnull, hk⟩ | ⟨hlt, hne, hk⟩ <;>
    rcases b.sched.registerProc_cases p with ⟨hfull', hb⟩ | ⟨hlt', hnull', hb⟩ | ⟨hlt', hne', hb⟩ <;>
    first
    | exact absurd (hcur.symm.trans hnull') hne
    | exact absurd (hcur.trans hnull) hne'
    | omega
    | rw [hb, hk]
  · exact { h with submitted := hsubmitted }
  · exact {
      hready.setState hp .procRunning with
      procList := hlist
      currentProc := rfl
      submitted := hsubmitted }
  · exact { hready with procList := hlist, submitted := hsubmitted }

theorem ready {p : Ptr} (hp : b.Created p) : b.sched.ready p = k.sched.ready p := by
  have hstate : b.sched.record p .procState = (k.sched.procs p).procState.code :=
    congrFun (h.record p hp) .procState
  rw [SchedMem.ready, hstate, Sched.ready, eligible]
  cases (k.sched.procs p).procState <;> rfl

variable (hknows : k.Knows)
include hknows

theorem findNextProc : b.sched.findNextProc = Asnu.findNextProc k.sched := by
  have hcount := h.procCount
  have hproc : b.sched.proc = k.sched.proc := by
    funext i
    rw [SchedMem.proc, h.procList, Sched.proc]
  have hstart : b.sched.searchStart = k.sched.searchStart := by
    rw [SchedMem.searchStart, hcount, hproc, h.currentProc]
    rfl
  rw [SchedMem.findNextProc, hcount, hproc, hstart, Asnu.findNextProc]
  by_cases hzero : k.sched.procCount = 0
  · rw [if_pos hzero, if_pos hzero]
  · rw [if_neg hzero, if_neg hzero]
    have hfirst : first (fun i => b.sched.ready
          (k.sched.proc ((k.sched.searchStart + i) % k.sched.procCount))) k.sched.procCount =
        first (fun i => eligible
          (k.sched.procs (k.sched.proc ((k.sched.searchStart + i) % k.sched.procCount))))
          k.sched.procCount := by
      refine first_congr (fun i _ => h.ready ((h.created_iff _).mpr (hknows.listed _ ?_)))
      have hlt := Nat.mod_lt (k.sched.searchStart + i) (Nat.pos_of_ne_zero hzero)
      rw [Sched.proc, List.getD_eq_getElem _ _ hlt]
      exact List.getElem_mem hlt
    dsimp only
    generalize first (fun i => eligible
      (k.sched.procs (k.sched.proc ((k.sched.searchStart + i) % k.sched.procCount))))
      k.sched.procCount = found at hfirst ⊢
    subst hfirst
    rfl

theorem dispatches_iff (p : Ptr) : b.sched.Dispatches p ↔ k.sched.Dispatches p := by
  rw [SchedMem.Dispatches, h.findNextProc hknows, h.currentProc, Sched.Dispatches]

/-- Both leave the current process. -/
theorem left (cpu : Cpu) :
    Shows { b with sched := b.sched.left cpu }
      { k with sched := k.sched.left cpu } := by
  rw [SchedMem.left, h.currentProc, Sched.left]
  by_cases hcur : k.sched.currentProc = NULL
  · rw [if_pos hcur, if_pos hcur]
    exact h
  · have hcreated := (h.created_iff _).mpr (hknows.current hcur)
    rw [if_neg hcur, if_neg hcur]
    exact (h.saveContext hcreated cpu).setState hcreated .procReady

/-- Both make the same switch, and load the same registers. -/
theorem contextSwitch (cpu : Cpu) :
    Shows (b.exec (.contextSwitch cpu)) (k.exec (.contextSwitch cpu)) ∧
      (b.sched.contextSwitch cpu).2 = (Asnu.contextSwitch k.sched cpu).cpu? := by
  rcases b.sched.contextSwitch_cases cpu with ⟨hb, hnone⟩ | ⟨next, hnext, hb⟩
  · rcases Asnu.contextSwitch_cases k.sched cpu with ⟨hk, _⟩ | ⟨q, hq, _⟩
    · rw [ByteKernel.exec, Kernel.exec, Sched.after_eq_self hk, hb, hk]
      exact ⟨h, rfl⟩
    · exact absurd ((h.dispatches_iff hknows q).mpr hq) (hnone q)
  · have hk := (h.dispatches_iff hknows next).mp hnext
    have hcreated := (h.created_iff next).mpr (hknows.listed next hk.mem.1)
    have hup := (h.left hknows cpu).setState hcreated .procRunning
    have htaken : Shows { b with sched := (b.sched.left cpu).takenUp next }
        { k with sched := (k.sched.left cpu).takenUp next } := { hup with currentProc := rfl }
    have hrecord := htaken.record next hcreated
    rw [ByteKernel.exec, Kernel.exec, Sched.after, contextSwitch_of_dispatches hk cpu, hb]
    refine ⟨htaken, ?_⟩
    rw [hrecord, loadedRegs_field]
    rfl

end Shows

namespace Kernel

/-- Whoever registers created processes only is known to the scheduler. -/
theorem Knows.exec {k : Kernel} (h : k.Knows) {c : SchedCall}
    (hc : ∀ p, c = .registerProc p → k.Created p) : (k.exec c).Knows := by
  cases c with
  | createProc a =>
      rcases exec_createProc k a with ⟨pmm, heq, _⟩ | ⟨i, _, _, heq⟩
      · rw [heq]
        exact ⟨h.listed, h.current⟩
      · have hgrow : ∀ p, k.Created p → (k.exec (.createProc a)).Created p := by
          rintro p ⟨b, hb⟩
          rw [heq]
          exact ⟨b, List.mem_cons_of_mem _ hb⟩
        rw [heq] at hgrow ⊢
        exact ⟨fun p hp => hgrow p (h.listed p hp), fun hne => hgrow _ (h.current hne)⟩
  | registerProc p =>
      have hp := hc p rfl
      have happended : ∀ q ∈ k.sched.procList ++ [p], k.Created q :=
        List.forall_mem_append.mpr ⟨h.listed, List.forall_mem_singleton.mpr hp⟩
      rcases registerProc_cases k.sched p with ⟨_, heq⟩ | ⟨_, _, heq⟩ | ⟨_, _, heq⟩ <;>
        rw [Kernel.exec, heq]
      · exact ⟨h.listed, h.current⟩
      · exact ⟨happended, fun _ => hp⟩
      · exact ⟨happended, h.current⟩
  | contextSwitch cpu =>
      rw [Kernel.exec]
      rcases contextSwitch_cases k.sched cpu with ⟨heq, _⟩ | ⟨next, hnext, _⟩
      · rw [Sched.after_eq_self heq]
        exact h
      · rw [Sched.after_of_dispatches hnext cpu]
        exact ⟨h.listed, fun _ => h.listed _ hnext.mem.1⟩

theorem knows_boot (pmm : Pmm) (s : Sched) : (boot pmm s).Knows :=
  ⟨List.forall_mem_nil _, fun hne => absurd rfl hne⟩

end Kernel

theorem shows_boot {pmm : Pmm} (h : pmm.Sized) (s : SchedMem) (t : Sched) :
    Shows (ByteKernel.boot pmm s) (Kernel.boot pmm t) where
  houses := ⟨h, List.forall_mem_nil _, List.nodup_nil, List.forall_mem_nil _⟩
  file := rfl
  bits := fun _ _ => rfl
  procList := rfl
  currentProc := rfl
  nextPid := rfl
  created := rfl
  submitted := rfl
  record := List.forall_mem_nil _

/-- One step of both, with a creation that keeps clear of the bitmap and of the other
records. -/
theorem Shows.exec {b : ByteKernel} {k : Kernel} (h : Shows b k) (hknows : k.Knows) {c : SchedCall}
    (hregister : ∀ p, c = .registerProc p → k.Created p) (hspares : b.Spares c) :
    Shows (b.exec c) (k.exec c) ∧ (k.exec c).Knows := by
  refine ⟨?_, hknows.exec hregister⟩
  cases c with
  | createProc a => exact h.createProc a hspares
  | registerProc p => exact h.registerProc ((h.created_iff p).mpr (hregister p rfl))
  | contextSwitch cpu => exact (h.contextSwitch hknows cpu).1

section Runs

variable {bytes : ByteKernel → SchedCall → Prop} {objects : Kernel → SchedCall → Prop}
  (hguards : ∀ b k c, Shows b k → (bytes b c ↔ objects k c))
  (hregister : ∀ k p, objects k (.registerProc p) → k.Created p)
include hguards hregister

/-- A run over bytes is a run over objects. -/
theorem ByteKernel.run_shows {b b' : ByteKernel} {ops : List SchedCall}
    (hrun : Run (StepIf (fun b c => bytes b c ∧ b.Spares c)) b ops b') {k : Kernel}
    (hshows : Shows b k) (hknows : k.Knows) :
    ∃ k', Run (Kernel.StepIf objects) k ops k' ∧ Shows b' k' ∧ k'.Knows := by
  refine hrun.refines (fun b k => Shows b k ∧ k.Knows) ?_ ⟨hshows, hknows⟩
  rintro b c _ k ⟨hb, hk⟩ ⟨⟨hguard, hspares⟩, rfl⟩
  have hobject := (hguards b k c hb).mp hguard
  have hnext := hb.exec hk (fun p hp => hregister k p (hp ▸ hobject)) hspares
  exact ⟨k.exec c, ⟨hobject, rfl⟩, hnext⟩

/-- Calls that keep clear of everything among objects do so among bytes, and lead to states
that are related. -/
theorem Kernel.along_bytes {k : Kernel} {ops : List SchedCall}
    (halong : Along (fun k c => objects k c ∧ k.Spares c) Kernel.exec k ops) {b : ByteKernel}
    (hshows : Shows b k) (hknows : k.Knows) :
    Along (fun b c => bytes b c ∧ b.Spares c) ByteKernel.exec b ops ∧
      Shows (ops.foldl ByteKernel.exec b) (ops.foldl Kernel.exec k) ∧
      (ops.foldl Kernel.exec k).Knows := by
  induction ops generalizing b k with
  | nil => exact ⟨trivial, hshows, hknows⟩
  | cons c ops ih =>
      obtain ⟨⟨hobject, hspares⟩, hrest⟩ := halong
      have hbytes := (hshows.spares_iff c).mpr hspares
      obtain ⟨hshown, hknown⟩ :=
        hshows.exec hknows (fun p hp => hregister k p (hp ▸ hobject)) hbytes
      obtain ⟨halong, hend⟩ := ih hrest hshown hknown
      exact ⟨⟨⟨(hguards b k c hshows).mpr hobject, hbytes⟩, halong⟩, hend⟩

end Runs

end Asnu
