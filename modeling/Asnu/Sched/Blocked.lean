import Asnu.Sched.Invariant

/-!
Processes that wait, sleep, are suspended or have terminated. The search never
picks one, but a switch makes the process it leaves ready whatever state it was
in, so the current process can come back from any of these states.
-/

namespace Asnu

open Lib

/-- The states in which a process is not to be run. -/
def SchedulerState.Blocked : SchedulerState → Prop
  | .procWaiting | .procSleeping | .procTerminated | .procSuspended => True
  | .procNew | .procReady | .procRunning | .procIdle => False

instance : (st : SchedulerState) → Decidable st.Blocked
  | .procWaiting | .procSleeping | .procTerminated | .procSuspended =>
      inferInstanceAs (Decidable True)
  | .procNew | .procReady | .procRunning | .procIdle => inferInstanceAs (Decidable False)

namespace Sched

/-- A call of `context_switch`, nobody else changing anything. -/
def Switch (s : Sched) (cpu : Cpu) (t : Sched) : Prop := t = s.after cpu

/-- `p` keeps the state it has in `s`, and the next call does not select it. -/
def LeavesAlone (s t : Sched) (p : Ptr) : Prop :=
  (t.procs p).procState = (s.procs p).procState ∧ findNextProc t ≠ p

theorem not_ready_of_blocked {s : Sched} {p : Ptr}
    (h : (s.procs p).procState.Blocked) : s.ready p = false := by
  rw [ready, eligible]
  cases hstate : (s.procs p).procState <;> simp_all [SchedulerState.Blocked]

theorem leavesAlone_of_procs_eq {s t : Sched} {p : Ptr} (hp : p ≠ NULL)
    (hblocked : (s.procs p).procState.Blocked) (heq : t.procs p = s.procs p) :
    s.LeavesAlone t p := by
  refine ⟨by rw [heq], fun hfound => ?_⟩
  have hready := (findNextProc_mem hfound hp).2
  rw [not_ready_of_blocked (heq ▸ hblocked)] at hready
  exact Bool.noConfusion hready

/-- A blocked process that is not current stays so, and its record with it. -/
theorem after_blocked {s : Sched} {p : Ptr} (hblocked : (s.procs p).procState.Blocked)
    (hcur : s.currentProc ≠ p) (cpu : Cpu) :
    (s.after cpu).currentProc ≠ p ∧ (s.after cpu).procs p = s.procs p := by
  have hnot : ¬ s.Dispatches p := by
    intro h
    have hready := h.mem.2
    rw [not_ready_of_blocked hblocked] at hready
    exact Bool.noConfusion hready
  refine ⟨?_, after_procs_ne cpu hcur.symm hnot⟩
  rcases contextSwitch_cases s cpu with ⟨hret, _⟩ | ⟨next, hnext, _⟩
  · rw [after_eq_self hret]
    exact hcur
  · rw [after_of_dispatches hnext cpu]
    rintro rfl
    exact hnot hnext

/-- With nobody to switch to a call changes nothing. -/
theorem after_nobody {s : Sched} (hnobody : ∀ q ∈ s.procList, s.ready q = false)
    (cpu : Cpu) : s.after cpu = s := by
  rcases contextSwitch_cases s cpu with ⟨hret, _⟩ | ⟨next, hnext, _⟩
  · exact after_eq_self hret
  · have hready := hnext.mem.2
    rw [hnobody next hnext.mem.1] at hready
    exact Bool.noConfusion hready

/-- The process a switch leaves becomes ready. -/
theorem after_left_state {s : Sched} {p q : Ptr} (hp : p ≠ NULL)
    (hcur : s.currentProc = p) (hq : s.Dispatches q) (cpu : Cpu) :
    ((s.after cpu).procs p).procState = .procReady := by
  have hne : p ≠ q := fun heq => hq.2.2 (hcur.trans heq)
  rw [after_of_dispatches hq cpu]
  simp [switched, hne, hcur, hp]

end Sched

/-- A process that is not runnable keeps its state and is never selected, in
any run of switches, exactly when it is not the current one or there is nobody
to switch to. -/
theorem blocked_stays_blocked_iff (s : Sched) (hnull : NULL ∉ s.procList) (p : Ptr)
    (hp : p ≠ NULL) (hblocked : (s.procs p).procState.Blocked) :
    (∀ cpus t, Run Sched.Switch s cpus t → s.LeavesAlone t p) ↔
      s.currentProc ≠ p ∨ ∀ q ∈ s.procList, eligible (s.procs q) = false := by
  constructor
  · intro hclaim
    by_contra hcond
    obtain ⟨hcur, hsome⟩ := not_or.mp hcond
    have hcur : s.currentProc = p := not_not.mp hcur
    have hready : ∃ q ∈ s.procList, s.ready q = true := by
      by_contra hnone
      refine hsome (fun q hq => ?_)
      rw [← Bool.not_eq_true]
      exact fun hq' => hnone ⟨q, hq, hq'⟩
    obtain ⟨q, hq⟩ := (Sched.exists_dispatches_iff hnull
      (hcur ▸ Sched.not_ready_of_blocked hblocked)).mpr hready
    have hrun : Run Sched.Switch s [restoreRegs {}] (s.after (restoreRegs {})) :=
      Run.cons rfl (Run.nil _)
    have hkept := (hclaim _ _ hrun).1
    rw [Sched.after_left_state hp hcur hq] at hkept
    rw [← hkept] at hblocked
    exact hblocked
  · rintro (hcur | hnobody) cpus t hrun
    · have hinv : t.currentProc ≠ p ∧ t.procs p = s.procs p := by
        refine hrun.invariant (fun u => u.currentProc ≠ p ∧ u.procs p = s.procs p) ?_
          ⟨hcur, rfl⟩
        rintro u cpu v ⟨hne, heq⟩ rfl
        obtain ⟨hne', heq'⟩ := Sched.after_blocked (heq ▸ hblocked) hne cpu
        exact ⟨hne', heq'.trans heq⟩
      exact Sched.leavesAlone_of_procs_eq hp hblocked hinv.2
    · have hsame : t = s := by
        refine hrun.invariant (fun u => u = s) ?_ rfl
        rintro u cpu v rfl rfl
        exact Sched.after_nobody hnobody cpu
      exact Sched.leavesAlone_of_procs_eq hp hblocked (by rw [hsame])

namespace Sample

/-- The two processes of `Sample.kernel`, the first of which, the current one,
has been terminated. -/
def exited : Sched := kernel.sched.setState 0x104000#64 .procTerminated

/-- The same with the second one asleep instead. -/
def asleep : Sched := kernel.sched.setState 0x105000#64 .procSleeping

end Sample

theorem blocked_stays_blocked_iff_sample :
    (∀ cpus t, Run Sched.Switch Sample.asleep cpus t →
        Sample.asleep.LeavesAlone t 0x105000#64) ↔
      Sample.asleep.currentProc ≠ 0x105000#64 ∨
        ∀ q ∈ Sample.asleep.procList, eligible (Sample.asleep.procs q) = false :=
  blocked_stays_blocked_iff Sample.asleep (by decide +kernel) 0x105000#64 (by decide)
    (by decide +kernel)

/-- A terminated process that is still current is made ready by the next
switch. -/
theorem terminated_process_revived :
    ¬ ∀ s : Sched, NULL ∉ s.procList → ∀ p : Ptr, p ≠ NULL →
      (s.procs p).procState.Blocked →
      ∀ cpus t, Run Sched.Switch s cpus t → s.LeavesAlone t p := by
  intro hclaim
  have hrun : Run Sched.Switch Sample.exited [Sample.bootCpu]
      (Sample.exited.after Sample.bootCpu) := Run.cons rfl (Run.nil _)
  have hkept := (hclaim Sample.exited (by decide +kernel) 0x104000#64 (by decide)
    (by decide +kernel) _ _ hrun).1
  exact absurd hkept (by decide +kernel)

end Asnu
