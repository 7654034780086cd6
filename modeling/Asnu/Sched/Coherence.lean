import Asnu.Sched.Invariant
import Asnu.Sched.Refine

/-!
The invariant of the scheduler over bytes. It holds as long as no record that
`create_proc` gets has a byte of the bitmap in it and the words it writes to the stacks
are neither in the bitmap nor in a record. A record over the bitmap frees frames that are
taken, and a later creation wipes a process that runs.
-/

namespace Asnu

open Lib

namespace ByteKernel

/-- Only created processes are registered, each at most once. -/
def RegistersOnce (b : ByteKernel) : SchedCall → Prop
  | .registerProc p => b.Created p ∧ p ∉ b.submitted
  | .createProc _ | .contextSwitch _ => True

instance (b : ByteKernel) : (c : SchedCall) → Decidable (b.RegistersOnce c)
  | .registerProc p => inferInstanceAs (Decidable (b.Created p ∧ p ∉ b.submitted))
  | .createProc _ => inferInstanceAs (Decidable True)
  | .contextSwitch _ => inferInstanceAs (Decidable True)

/-- `p->proc_state` is `st`. -/
def InState (b : ByteKernel) (p : Ptr) (st : SchedulerState) : Prop :=
  b.sched.record p .procState = st.code

instance (b : ByteKernel) (p : Ptr) (st : SchedulerState) : Decidable (b.InState p st) :=
  inferInstanceAs (Decidable (_ = _))

/-- What the list, the count, the current process and the process states have to do with
each other. The submissions beyond the first 1024 are the ones `register_proc` refused. -/
structure Coherent (b : ByteKernel) : Prop where
  count_le : b.sched.procCount ≤ 1024
  current_null_iff : b.sched.currentProc = NULL ↔ b.sched.procCount = 0
  current_mem : b.sched.procCount ≠ 0 → b.sched.currentProc ∈ b.sched.procList
  current_running : b.sched.procCount ≠ 0 → b.InState b.sched.currentProc .procRunning
  others_ready : ∀ p ∈ b.sched.procList, p ≠ b.sched.currentProc → b.InState p .procReady
  distinct : b.sched.procList.Nodup
  in_order : b.sched.procList = b.submitted.take 1024
  refused : ∀ p ∈ b.submitted.drop 1024, b.InState p .procNew ∧ p ∉ b.sched.procList

end ByteKernel

namespace Shows

variable {b : ByteKernel} {k : Kernel} (h : Shows b k)
include h

theorem registersOnce_iff (c : SchedCall) : b.RegistersOnce c ↔ k.RegistersOnce c := by
  cases c with
  | registerProc p =>
      rw [ByteKernel.RegistersOnce, h.created_iff, h.submitted]
      rfl
  | createProc a => exact Iff.rfl
  | contextSwitch cpu => exact Iff.rfl

theorem inState {p : Ptr} (hp : b.Created p) {st : SchedulerState}
    (hst : (k.sched.procs p).procState = st) : b.InState p st :=
  (congrFun (h.record p hp) .procState).trans (congrArg SchedulerState.code hst)

/-- What is coherent of the objects is so of the bytes that show them. -/
theorem coherent (horderly : k.Orderly) : b.Coherent := by
  have hk := horderly.coherent
  have hcreated : ∀ p ∈ k.submitted, b.Created p :=
    fun p hp => (h.created_iff p).mpr (horderly.submitted_created p hp)
  have hlisted : ∀ p ∈ b.sched.procList, b.Created p :=
    fun p hp => hcreated p (horderly.mem_submitted (h.procList ▸ hp))
  have hcount := h.procCount
  constructor
  · exact hcount ▸ hk.count_le
  · rw [h.currentProc, hcount]
    exact hk.current_null_iff
  · rw [h.currentProc, hcount, h.procList]
    exact hk.current_mem
  · intro hne
    rw [hcount] at hne
    have hmem := hk.current_mem hne
    rw [h.currentProc]
    exact h.inState (hlisted _ (h.procList ▸ hmem)) (hk.current_running hne)
  · intro p hp hne
    rw [h.currentProc] at hne
    exact h.inState (hlisted p hp) (hk.others_ready p (h.procList ▸ hp) hne)
  · exact h.procList ▸ hk.distinct
  · rw [h.procList, h.submitted]
    exact hk.in_order
  · intro p hp
    rw [h.submitted] at hp
    obtain ⟨hnew, hout⟩ := hk.refused p hp
    exact ⟨h.inState (hcreated p (List.mem_of_mem_drop hp)) hnew, h.procList ▸ hout⟩

end Shows

namespace Sample

def sampleCalls : List SchedCall :=
  [.createProc args0, .createProc args1, .registerProc 0x104000#64, .registerProc 0x105000#64,
    .contextSwitch bootCpu]

/-- One frame, with the bitmap in the page behind it. -/
def nextToBitmap : Pmm := pmmInit (fun _ => 0#8) 0x100000#64 0x1000#64 0x101000#64 16#64

/-- A process whose stack is far from both. -/
def farArgs : ProcArgs := ⟨0x400000#64, 0#8, 0x300000#64, 4096#64⟩

end Sample

end Asnu
