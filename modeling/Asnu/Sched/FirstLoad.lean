import Asnu.Sched.Context
import Asnu.Sched.Refine

/-!
The first load of a process, from the bytes of its record. The boot thread creates and
registers, then switches take place: a process that is not the first one registered is
loaded with what `create_proc` has stored for it, if the creations after it have kept
clear of the bitmap and of its record.
-/

namespace Asnu

open Lib

/-- The calls of the boot thread: procedures are created and registered. -/
def ByteKernel.BootCall (b : ByteKernel) : SchedCall → Prop
  | .createProc _ => True
  | .registerProc p => b.Created p
  | .contextSwitch _ => False

/-- A call of `context_switch` that does not take up `p`. -/
def SchedMem.Bypass (p : Ptr) (s : SchedMem) (cpu : Cpu) (t : SchedMem) : Prop :=
  ¬ s.Dispatches p ∧ t = (s.contextSwitch cpu).1

namespace Shows

variable {b : ByteKernel} {k : Kernel} (h : Shows b k)
include h

theorem bootCall_iff (c : SchedCall) : b.BootCall c ↔ k.BootCall c := by
  cases c with
  | registerProc p => exact h.created_iff p
  | createProc a => exact Iff.rfl
  | contextSwitch cpu => exact Iff.rfl

/-- The switches after boot, over bytes and over objects. -/
theorem run_bypass (hknows : k.Knows) {p : Ptr} {switches : List Cpu} {t : SchedMem}
    (hrun : Run (SchedMem.Bypass p) b.sched switches t) :
    ∃ u, Run (Sched.Bypass p) k.sched switches u ∧
      Shows { b with sched := t } { k with sched := u } ∧ Kernel.Knows { k with sched := u } := by
  refine hrun.refines (fun s u => Shows { b with sched := s } { k with sched := u } ∧
    Kernel.Knows { k with sched := u }) ?_ ⟨h, hknows⟩
  rintro s cpu _ u ⟨hs, hu⟩ ⟨hbypass, rfl⟩
  exact ⟨u.after cpu, ⟨fun hp => hbypass ((hs.dispatches_iff hu p).mpr hp), rfl⟩,
    (hs.contextSwitch hu cpu).1, hu.exec (c := .contextSwitch cpu) (fun _ hc => nomatch hc)⟩

end Shows

namespace Sample

/-- The boot thread's calls that lead to `kernel`. -/
def bootCalls : List SchedCall :=
  [.createProc args0, .createProc args1, .registerProc 0x104000#64, .registerProc 0x105000#64]

def byteKernel : ByteKernel := bootCalls.foldl ByteKernel.exec (ByteKernel.boot frames.pmm untouched)

theorem booted :
    Run (ByteKernel.StepIf (fun u c => u.BootCall c ∧ u.Spares c))
        (ByteKernel.boot frames.pmm untouched) bootCalls byteKernel ∧
      Shows byteKernel kernel ∧ kernel.Knows := by
  have hkernel : Along (fun k c => k.BootCall c ∧ k.Spares c) Kernel.exec
      (Kernel.boot frames.pmm blank) bootCalls := by decide +kernel
  obtain ⟨halong, hend⟩ := Kernel.along_bytes (fun _ _ c h => h.bootCall_iff c) (fun _ _ h => h)
    hkernel (shows_boot (Ledger.run_sized frames_reached) untouched blank)
    (Kernel.knows_boot frames.pmm blank)
  exact ⟨Run.of_along halong, hend⟩

end Sample

end Asnu
